import LocalCache.Handles
import LocalCache.Sessions

/-!
# Engines behind a handle

Threads share engines through a handle, and other engines on the same database stand outside it.
A thread runs the parts of its call on the session of the engine it holds, and leaves the engine
when the call has returned, or in a panic at any time. `parts` is a history variable : the parts
run so far, each with the thread that ran it.

What the handle's threads do is a run of the sessions. No session mixes the calls of two threads :
a part that goes on with a call follows a part of the same thread, and an engine that can be taken
is between two calls (`calls_of_run`). The threads of a `ReadPool`, whose engines are all read-only,
change nothing that anyone else sees (`readPool_of_run`).
-/

namespace LocalCache

/-- A step of the handle's locks, the next part of a call on the engine that the thread holds, or a
step of an engine outside the handle. -/
inductive SharedEvent (T : Type)
  | handle (ev : HandleEvent)
  | part (thread : ℕ) (env : Env T) (action : Action T)
  | outside (ev : SessionEvent T)

/-- A handle's locks and threads, the sessions of its engines and of all others, and the parts they
ran, with the thread for those of the handle. -/
structure Shared (T : Type) where
  handle : HandleState
  sessions : Sessions T
  parts : List (Option ℕ × SessionEvent T)

namespace Shared

variable {T : Type}

def init (engines : ℕ → Engine) (db : Db) : Shared T := ⟨.init, .init engines db, []⟩

/-- The call of the thread has not returned yet. -/
def busy (s : Shared T) (t : ℕ) : Bool :=
  match s.handle.checkout t with
  | .holding k => (s.sessions.session k).call.isSome
  | .idle | .scanning _ _ | .waiting _ => false

variable (host : Host T) (h : Handle)

/-- A session runs its next part, if it has one. -/
def runs (s : Shared T) (thread : Option ℕ) (ev : SessionEvent T) : Shared T :=
  match s.sessions.part? host ev with
  | none => s
  | some part =>
    { s with sessions := s.sessions.after ev.conn part, parts := s.parts ++ [(thread, ev)] }

/-- The sessions of the handle's engines are the first ones. The guard of an engine lives until the
call has returned, or until a panic. -/
def step (s : Shared T) : SharedEvent T → Shared T
  | .handle ev =>
    if ev.action = .release false ∧ s.busy ev.thread = true then s
    else { s with handle := s.handle.step h ev }
  | .part thread env action =>
    match s.handle.checkout thread with
    | .holding k => s.runs host (some thread) ⟨k, env, action⟩
    | .idle | .scanning _ _ | .waiting _ => s
  | .outside ev => if ev.conn < h.size then s else s.runs host none ev

/-- Who ran the last part on a session. -/
def lastOn (conn : ℕ) (parts : List (Option ℕ × SessionEvent T)) : Option (Option ℕ) :=
  (parts.filter fun p => p.2.conn = conn).getLast?.map Prod.fst

end Shared

/-- The event goes on with a call. -/
def SessionEvent.resumes {T : Type} (ev : SessionEvent T) : Bool :=
  match ev.action with
  | .invoke _ => false
  | .resume => true

namespace Shared

variable {T : Type}

/-- A part of a thread that goes on with a call follows, on its session, a part of the same
thread. -/
def Unmixed (parts : List (Option ℕ × SessionEvent T)) : Prop :=
  ∀ before t ev after, parts = before ++ (some t, ev) :: after → ev.resumes = true →
    lastOn ev.conn before = some (some t)

@[simp] theorem session_after_self (s : Sessions T) (conn : ℕ) (part : Part T) :
    (s.after conn part).session conn =
      { engine := { (s.session conn).engine with encryptionKey := part.key }
        call := part.next.getLeft?
        responses := (s.session conn).responses ++ part.next.getRight?.getD [] } :=
  Function.update_self _ _ _

theorem session_after_of_ne {conn k : ℕ} (hne : k ≠ conn) (s : Sessions T) (part : Part T) :
    (s.after conn part).session k = s.session k := Function.update_of_ne hne _ _

/-! ## No two calls are mixed -/

section Calls

variable {host : Host T} {h : Handle} {s : Shared T}

theorem lastOn_append (conn : ℕ) (parts : List (Option ℕ × SessionEvent T)) (thread : Option ℕ)
    (ev : SessionEvent T) : lastOn conn (parts ++ [(thread, ev)]) =
      if ev.conn = conn then some thread else lastOn conn parts := by
  unfold lastOn
  rw [List.filter_append]
  split_ifs with hconn
  · rw [List.filter_cons_of_pos (by simpa using hconn)]
    simp
  · rw [List.filter_cons_of_neg (by simpa using hconn)]
    simp

theorem unmixed_append {parts : List (Option ℕ × SessionEvent T)} {thread : Option ℕ}
    {ev : SessionEvent T} (hparts : Unmixed parts)
    (hlast : ∀ t, thread = some t → ev.resumes = true → lastOn ev.conn parts = some (some t)) :
    Unmixed (parts ++ [(thread, ev)]) := by
  intro before t ev' after heq hresumes
  rcases List.eq_nil_or_concat after with rfl | ⟨after', q, rfl⟩
  · obtain ⟨rfl, hq⟩ := List.append_inj' heq rfl
    obtain ⟨hthread, rfl⟩ := Prod.mk.inj (List.singleton_inj.mp hq)
    exact hlast t hthread hresumes
  · have hinit : parts = before ++ (some t, ev') :: after' := by
      have heq' : parts ++ [(thread, ev)] = (before ++ (some t, ev') :: after') ++ [q] := by
        simpa using heq
      exact (List.append_inj' heq' rfl).1
    exact hparts before t ev' after' hinit hresumes

theorem handle_runs (s : Shared T) (thread : Option ℕ) (ev : SessionEvent T) :
    (s.runs host thread ev).handle = s.handle := by
  unfold Shared.runs
  cases s.sessions.part? host ev <;> rfl

theorem sessions_runs (s : Shared T) (thread : Option ℕ) (ev : SessionEvent T) :
    (s.runs host thread ev).sessions = s.sessions.step host ev := by
  unfold Shared.runs Sessions.step
  cases s.sessions.part? host ev <;> rfl

/-- What holds in every state : an engine of the handle is in a call only if a thread holds it and
ran the last part on it, or it is lost to a panic. -/
structure Sound (host : Host T) (h : Handle) (engines : ℕ → Engine) (db : Db) (s : Shared T) :
    Prop where
  handle : HandleState.Sound h s.handle
  sessions : s.sessions = runFrom (Sessions.step host) (.init engines db) (s.parts.map Prod.snd)
  unmixed : Unmixed s.parts
  called : ∀ k < h.size, (s.sessions.session k).call ≠ none →
    (s.handle.locks k).poisoned = true ∨
      ∃ t, s.handle.checkout t = .holding k ∧ lastOn k s.parts = some (some t)

variable {engines : ℕ → Engine} {db : Db}

theorem sound_init (host : Host T) (h : Handle) (engines : ℕ → Engine) (db : Db) :
    Sound host h engines db (init engines db) :=
  ⟨HandleState.sound_init h, rfl, fun before t ev after heq _ => by simp [init] at heq,
    fun _ _ hcall => absurd rfl hcall⟩

/-- A part runs on a session that its thread holds, or outside the handle. -/
theorem Sound.runs (hs : Sound host h engines db s) {thread : Option ℕ} {ev : SessionEvent T}
    (hthread : ∀ t, thread = some t → s.handle.checkout t = .holding ev.conn)
    (houtside : thread = none → h.size ≤ ev.conn) :
    Sound host h engines db (s.runs host thread ev) := by
  unfold Shared.runs
  cases hpart : s.sessions.part? host ev with
  | none => exact hs
  | some part =>
    have hstep : s.sessions.after ev.conn part = s.sessions.step host ev := by
      rw [Sessions.step, hpart]
    refine ⟨hs.handle, ?_, unmixed_append hs.unmixed fun t ht hresumes => ?_, fun k hk hcall => ?_⟩
    · rw [List.map_append, List.map_singleton, runFrom_append, ← hs.sessions]
      exact hstep
    · -- the session is in a call, and its engine is held and not lost
      have hhold := hthread t ht
      have hcall : (s.sessions.session ev.conn).call ≠ none := fun hnone => by
        obtain ⟨conn, env, action⟩ := ev
        cases action with
        | invoke call => cases hresumes
        | resume => simp [Sessions.part?, hnone] at hpart
      have howner := (hs.handle.owners.owner ev.conn t).mpr (HandleState.holds_eq_some.mpr hhold)
      have hk : ev.conn < h.size := by
        have hwithin := hs.handle.within t
        rwa [hhold] at hwithin
      rcases hs.called ev.conn hk hcall with hpoison | ⟨u, hu, hlast⟩
      · rw [hs.handle.owners.poisoned _ hpoison] at howner
        cases howner
      · rw [hlast, hs.handle.owners.exclusive (HandleState.holds_eq_some.mpr hhold)
          (HandleState.holds_eq_some.mpr hu)]
    · by_cases hconn : k = ev.conn
      · subst hconn
        cases thread with
        | none => exact absurd hk (by have := houtside rfl; omega)
        | some t =>
          refine Or.inr ⟨t, hthread t rfl, ?_⟩
          rw [lastOn_append, if_pos rfl]
      · have hsame : ((s.sessions.after ev.conn part).session k).call =
            (s.sessions.session k).call := by
          rw [session_after_of_ne hconn]
        rw [hsame] at hcall
        refine (hs.called k hk hcall).imp_right fun ⟨t, ht, hlast⟩ => ⟨t, ht, ?_⟩
        rw [lastOn_append, if_neg (Ne.symm hconn)]
        exact hlast

/-- A step of the locks that ends no hold of an engine in a call. -/
theorem Sound.handled (hopen : h.Opened) (hs : Sound host h engines db s) {ev : HandleEvent}
    (hbusy : ¬(ev.action = .release false ∧ s.busy ev.thread = true)) :
    Sound host h engines db { s with handle := s.handle.step h ev } := by
  refine ⟨hs.handle.did hopen (HandleState.did_step h s.handle ev), hs.sessions, hs.unmixed,
    fun k hk hcall => ?_⟩
  rcases hs.called k hk hcall with hpoison | ⟨t, ht, hlast⟩
  · exact Or.inl (HandleState.poisoned_step h ev hpoison)
  · by_cases hthread : ev.thread = t
    · subst hthread
      cases haction : ev.action with
      | begin | advance =>
        refine Or.inr ⟨ev.thread, ?_, hlast⟩
        rw [HandleState.step, haction, ht]
        exact ht
      | release panics =>
        cases panics with
        | false =>
          refine absurd ⟨haction, ?_⟩ hbusy
          rw [busy, ht]
          exact Option.isSome_iff_ne_none.mpr hcall
        | true =>
          refine Or.inl ?_
          rw [HandleState.step, haction, ht]
          show ((s.handle.leaves ev.thread k true).locks k).poisoned = true
          rw [HandleState.locks_leaves, Function.update_self]
          simp [Lock.unlock]
    · exact Or.inr ⟨t, (HandleState.checkout_step_of_ne h _ hthread).trans ht, hlast⟩

theorem Sound.step (hopen : h.Opened) (hs : Sound host h engines db s) (ev : SharedEvent T) :
    Sound host h engines db (s.step host h ev) := by
  cases ev with
  | handle ev =>
    rw [Shared.step]
    split_ifs with hbusy
    · exact hs
    · exact hs.handled hopen hbusy
  | part thread env action =>
    cases hcheckout : s.handle.checkout thread with
    | holding k =>
      rw [Shared.step, hcheckout]
      refine hs.runs (fun t ht => ?_) nofun
      obtain rfl := Option.some.inj ht
      exact hcheckout
    | idle | scanning _ _ | waiting _ =>
      rw [Shared.step, hcheckout]
      exact hs
  | outside ev =>
    rw [Shared.step]
    split_ifs with hconn
    · exact hs
    · exact hs.runs nofun fun _ => not_lt.mp hconn

theorem Sound.run (hopen : h.Opened) (hs : Sound host h engines db s)
    (events : List (SharedEvent T)) :
    Sound host h engines db (runFrom (Shared.step host h) s events) :=
  runFrom_induction (fun _ ev hs => hs.step hopen ev) events hs

/-- What the threads of a handle do is a run of the sessions. No session mixes the calls of two
threads, and an engine that can be taken is between two calls. -/
theorem calls_of_run (hopen : h.Opened) (host : Host T) (engines : ℕ → Engine) (db : Db)
    (events : List (SharedEvent T)) :
    let s := runFrom (Shared.step host h) (init engines db) events
    s.sessions = runFrom (Sessions.step host) (.init engines db) (s.parts.map Prod.snd) ∧
      Unmixed s.parts ∧
      ∀ k < h.size, (s.handle.locks k).Available → (s.sessions.session k).call = none := by
  intro s
  have hs : Sound host h engines db s := (sound_init host h engines db).run hopen events
  refine ⟨hs.sessions, hs.unmixed, fun k hk hfree => ?_⟩
  by_contra hcall
  rcases hs.called k hk hcall with hpoison | ⟨t, ht, -⟩
  · rw [hfree.2] at hpoison
    cases hpoison
  · have howner := (hs.handle.owners.owner k t).mpr (HandleState.holds_eq_some.mpr ht)
    rw [hfree.1] at howner
    cases howner

/-- A step changes only the session of one engine, which its thread holds or which is outside. -/
theorem session_step_of_poisoned (hs : Sound host h engines db s) {k : ℕ} (hk : k < h.size)
    (hpoison : (s.handle.locks k).poisoned = true) (ev : SharedEvent T) :
    (s.step host h ev).sessions.session k = s.sessions.session k := by
  have hruns : ∀ thread (ev : SessionEvent T), ev.conn ≠ k →
      (s.runs host thread ev).sessions.session k = s.sessions.session k := fun thread ev hne => by
    unfold Shared.runs
    cases s.sessions.part? host ev with
    | none => rfl
    | some part => exact session_after_of_ne hne.symm _ _
  cases ev with
  | handle ev =>
    rw [Shared.step]
    split_ifs <;> rfl
  | part thread env action =>
    cases hcheckout : s.handle.checkout thread with
    | holding k' =>
      rw [Shared.step, hcheckout]
      refine hruns _ _ fun hkk => ?_
      have howner := (hs.handle.owners.owner k' thread).mpr (HandleState.holds_eq_some.mpr hcheckout)
      rw [show k' = k from hkk, hs.handle.owners.poisoned k hpoison] at howner
      cases howner
    | idle | scanning _ _ | waiting _ =>
      rw [Shared.step, hcheckout]
  | outside ev =>
    rw [Shared.step]
    split_ifs with hconn
    · rfl
    · exact hruns _ _ (by omega)

/-- A lost engine stays lost. -/
theorem poisoned_step {k : ℕ} (hpoison : (s.handle.locks k).poisoned = true) (ev : SharedEvent T) :
    ((s.step host h ev).handle.locks k).poisoned = true := by
  cases ev with
  | handle ev =>
    rw [Shared.step]
    split_ifs
    · exact hpoison
    · exact HandleState.poisoned_step h ev hpoison
  | part thread env action =>
    rw [Shared.step]
    split <;> simpa [handle_runs] using hpoison
  | outside ev =>
    rw [Shared.step]
    split_ifs <;> simpa [handle_runs] using hpoison

/-- An engine whose user panicked runs no further part, whatever call it was in. -/
theorem stopped_of_run (hopen : h.Opened) (host : Host T) (engines : ℕ → Engine) (db : Db)
    (events : List (SharedEvent T)) {k : ℕ} (hk : k < h.size)
    (hpoison : ((runFrom (Shared.step host h) (init engines db) events).handle.locks k).poisoned =
      true) (more : List (SharedEvent T)) :
    (runFrom (Shared.step host h) (init engines db) (events ++ more)).sessions.session k =
      (runFrom (Shared.step host h) (init engines db) events).sessions.session k := by
  have hs := (sound_init host h engines db).run hopen events
  rw [runFrom_append]
  generalize runFrom (Shared.step host h) (init engines db) events = s₀ at hs hpoison
  refine (runFrom_induction (I := fun s : Shared T => Sound host h engines db s ∧
    (s.handle.locks k).poisoned = true ∧ s.sessions.session k = s₀.sessions.session k)
    (fun s ev hI => ?_) more ⟨hs, hpoison, rfl⟩).2.2
  obtain ⟨hs, hpoison, hsame⟩ := hI
  exact ⟨hs.step hopen ev, poisoned_step hpoison ev,
    (session_step_of_poisoned hs hk hpoison ev).trans hsame⟩

end Calls

/-! ## The readers of a pool -/

end Shared

/-- The call in progress writes nothing. -/
def Ongoing.ReadsOnly {T : Type} : Ongoing T → Prop
  | .found _ | .loaded _ _ | .querying _ _ => True
  | .touching _ | .cleaning _ => False

/-- The part left the database and the engine as they were, and what follows it reads only. -/
structure Part.Silent {T : Type} (e : Engine) (db : Db) (p : Part T) : Prop where
  db : p.db = db
  wrote : p.wrote = []
  key : p.key = e.encryptionKey
  next : ∀ ongoing, p.next = .inl ongoing → ongoing.ReadsOnly

namespace Part.Silent

variable {T : Type} {e : Engine} {db : Db}

theorem returned (result : Except Error (Reply T)) (row : Option FileRow) :
    Silent e db (Part.returned e db result row) := ⟨rfl, rfl, rfl, nofun⟩

theorem goesOn {ongoing : Ongoing T} (h : ongoing.ReadsOnly) : Silent e db (Part.goesOn e db ongoing) :=
  ⟨rfl, rfl, rfl, fun _ heq => Sum.inl.inj heq ▸ h⟩

theorem ofOutcome {α : Type} {reply : α → Reply T} {row : Option FileRow} {o : Outcome α}
    (ho : o.db = db) : Silent e db (Part.ofOutcome e reply row o) := ⟨ho, rfl, rfl, nofun⟩

theorem ofFound {none_ : Reply T} (ongoing : FileRow → Ongoing T) (h : ∀ row, (ongoing row).ReadsOnly)
    (found : Except Error (Option FileRow)) : Silent e db (Part.ofFound e db none_ ongoing found) := by
  cases found with
  | error err => exact returned _ _
  | ok found =>
    cases found with
    | none => exact returned _ _
    | some row => exact goesOn (h row)

variable (hro : e.readOnly = true) (host : Host T) (env : Env T)
include hro

theorem of_write (w : Write T) : Silent e db (Part.ofWrite e (w.call e env.world db)) := by
  have hcall : ∃ result : Except Error (Reply T), w.call e env.world db = ⟨result, db, [], []⟩ := by
    refine ⟨.error .readOnly, ?_⟩
    cases w with
    | set src path payload => rw [Write.call, LocalCache.set, if_pos hro]; rfl
    | batchSet src items => rw [Write.call, LocalCache.batchSet, if_pos hro]; rfl
    | importEntries src records => rw [Write.call, LocalCache.importEntries, if_pos hro]; rfl
    | importFrom source => exact congrArg (Outcome.map _) (if_pos hro)
  obtain ⟨result, hcall⟩ := hcall
  rw [hcall]
  exact ⟨rfl, rfl, rfl, nofun⟩

/-- The first part of a call on a read-only engine. -/
theorem of_start (call : Call T) : Silent e db (call.start e host env db) := by
  cases call with
  | write w => exact of_write hro env w
  | remove path =>
    refine ofOutcome ?_
    rw [LocalCache.remove, if_pos hro]
    rfl
  | get path => exact ofFound .found (fun _ => trivial) _
  | getIfFresh path => exact ofFound .found (fun _ => trivial) _
  | touch path =>
    have hfind : touchFind e env.src env.world path db = .error .readOnly := by
      rw [touchFind, if_pos hro]
      rfl
    rw [Call.start, hfind]
    exact returned _ _
  | query q =>
    rw [Call.start]
    cases QueryPhase.start host.query env.src e q with
    | error err => exact returned _ _
    | ok phase => exact goesOn trivial
  | cleanupMissingFiles size =>
    rw [Call.start, if_pos hro]
    exact returned _ _
  | cleanupExpired size =>
    rw [Call.start, if_pos hro]
    exact returned _ _
  | purgeStaleVersions =>
    refine ofOutcome ?_
    rw [LocalCache.purgeStaleVersions, if_pos hro]
    rfl
  | rotateEncryptionKey nonces maxRows maxBytes newKey =>
    rw [Call.start, LocalCache.rotateEncryptionKey, if_pos hro]
    exact ⟨rfl, rfl, rfl, nofun⟩

/-- A later part of such a call. -/
theorem of_next {ongoing : Ongoing T} (hreads : ongoing.ReadsOnly) (commits : ℕ) :
    Silent e db (ongoing.next e host env commits db) := by
  cases ongoing with
  | found row =>
    rw [Ongoing.next]
    cases loadEntry env.src env.world row db with
    | error err => exact returned _ _
    | ok entry =>
      cases entry with
      | none => exact returned _ _
      | some entry => exact goesOn trivial
  | loaded row entry =>
    refine ofOutcome ?_
    rw [finishRead, if_pos hro]
  | querying q phase =>
    rw [Ongoing.next]
    cases (autocommit (phase.step host.query env.src e env.world q) db).1 with
    | error err => exact returned _ _
    | ok done =>
      cases done with
      | inl phase => exact goesOn trivial
      | inr report => exact returned _ _
  | touching row | cleaning c => exact hreads.elim

end Part.Silent

namespace Shared

variable {T : Type} {host : Host T} {size : ℕ}

/-- The same to anyone outside the pool, whose engines are read-only and read. -/
structure Invisible (size : ℕ) (s t : Sessions T) : Prop where
  db : s.db = t.db
  committed : s.committed = t.committed
  session : ∀ conn, size ≤ conn → s.session conn = t.session conn
  readOnly : ∀ k < size, (s.session k).engine.readOnly = true
  reads : ∀ k < size, ∀ ongoing, (s.session k).call = some ongoing → ongoing.ReadsOnly

theorem Invisible.silent {s t : Sessions T} (hst : Invisible size s t) {ev : SessionEvent T}
    (hconn : ev.conn < size) {part : Part T} (hpart : s.part? host ev = some part) :
    Part.Silent (s.session ev.conn).engine s.db part := by
  have hro := hst.readOnly ev.conn hconn
  obtain ⟨conn, env, action⟩ := ev
  cases action with
  | invoke call =>
    cases hcall : (s.session conn).call with
    | some ongoing => simp [Sessions.part?, hcall] at hpart
    | none =>
      simp only [Sessions.part?, hcall, Option.some.injEq] at hpart
      rw [← hpart]
      exact .of_start hro host env call
  | resume =>
    cases hcall : (s.session conn).call with
    | none => simp [Sessions.part?, hcall] at hpart
    | some ongoing =>
      simp only [Sessions.part?, hcall, Option.some.injEq] at hpart
      rw [← hpart]
      exact .of_next hro host env (hst.reads conn hconn ongoing hcall) _

/-- A part of a reader of the pool is not seen. -/
theorem Invisible.reader {s t : Sessions T} (hst : Invisible size s t) {ev : SessionEvent T}
    (hconn : ev.conn < size) {part : Part T} (hpart : s.part? host ev = some part) :
    Invisible size (s.after ev.conn part) t := by
  have hsilent := hst.silent hconn hpart
  refine ⟨hsilent.db.trans hst.db, ?_, fun conn hc => ?_, fun k hk => ?_, fun k hk ongoing hcall => ?_⟩
  · rw [← hst.committed, Sessions.after, hsilent.wrote]
    simp [Db.commits]
  · rw [session_after_of_ne (by omega)]
    exact hst.session conn hc
  · by_cases hkc : k = ev.conn
    · subst hkc
      rw [session_after_self]
      exact hst.readOnly ev.conn hconn
    · rw [session_after_of_ne hkc]
      exact hst.readOnly k hk
  · by_cases hkc : k = ev.conn
    · subst hkc
      rw [session_after_self] at hcall
      exact hsilent.next ongoing (Sum.getLeft?_eq_some_iff.mp hcall)
    · rw [session_after_of_ne hkc] at hcall
      exact hst.reads k hk ongoing hcall

/-- A step outside the pool is the same with and without the pool. -/
theorem Invisible.outside {s t : Sessions T} (hst : Invisible size s t) {ev : SessionEvent T}
    (hconn : size ≤ ev.conn) : Invisible size (s.step host ev) (t.step host ev) := by
  have hsession := hst.session ev.conn hconn
  have hpart : s.part? host ev = t.part? host ev := by
    rw [Sessions.part?, Sessions.part?, hsession, hst.db, hst.committed]
  rw [Sessions.step, Sessions.step, ← hpart]
  cases s.part? host ev with
  | none => exact hst
  | some part =>
    refine ⟨rfl, ?_, fun conn hc => ?_, fun k hk => ?_, fun k hk => ?_⟩
    · simp only [Sessions.after, hst.committed]
    · simp only [Sessions.after, hsession, Function.update_apply, hst.session conn hc]
    · rw [session_after_of_ne (by omega)]
      exact hst.readOnly k hk
    · rw [session_after_of_ne (by omega)]
      exact hst.reads k hk

/-- The steps taken outside the pool. -/
def outside? (size : ℕ) : SharedEvent T → Option (SessionEvent T)
  | .outside ev => if ev.conn < size then none else some ev
  | .handle _ | .part _ _ _ => none

theorem invisible_run : ∀ {events : List (SharedEvent T)} {s : Shared T} {t : Sessions T},
    0 < size → HandleState.Sound (.readPool size) s.handle → Invisible size s.sessions t →
      Invisible size (runFrom (step host (.readPool size)) s events).sessions
        (runFrom (Sessions.step host) t (events.filterMap (outside? size)))
  | [], _, _, _, _, hst => hst
  | ev :: events, s, t, hsize, hs, hst => by
    have hreader : ∀ ev : SessionEvent T, ev.conn < size →
        Invisible size (s.sessions.step host ev) t := fun ev hconn => by
      rw [Sessions.step]
      cases hpart : s.sessions.part? host ev with
      | none => exact hst
      | some part => exact hst.reader hconn hpart
    cases ev with
    | handle ev =>
      rw [List.filterMap_cons_none (by rfl), runFrom_cons]
      refine invisible_run hsize ?_ ?_
      · rw [step]
        split_ifs
        · exact hs
        · exact hs.did hsize (HandleState.did_step _ s.handle ev)
      · rw [step]
        split_ifs <;> exact hst
    | part thread env action =>
      rw [List.filterMap_cons_none (by rfl), runFrom_cons]
      have hwithin := hs.within thread
      cases hcheckout : s.handle.checkout thread with
      | holding k =>
        rw [hcheckout] at hwithin
        rw [step, hcheckout]
        refine invisible_run hsize ?_ ?_
        · rw [handle_runs]
          exact hs
        · rw [sessions_runs]
          exact hreader _ hwithin
      | idle | scanning _ _ | waiting _ =>
        rw [step, hcheckout]
        exact invisible_run hsize hs hst
    | outside ev =>
      by_cases hconn : ev.conn < size
      · have hnone : outside? size (.outside ev) = none := if_pos hconn
        rw [List.filterMap_cons_none hnone, runFrom_cons, step]
        rw [if_pos (show ev.conn < (Handle.readPool size).size from hconn)]
        exact invisible_run hsize hs hst
      · have hsome : outside? size (.outside ev) = some ev := if_neg hconn
        rw [List.filterMap_cons_some hsome, runFrom_cons, step, runFrom_cons]
        rw [if_neg (show ¬ev.conn < (Handle.readPool size).size from hconn)]
        refine invisible_run hsize ?_ ?_
        · rw [handle_runs]
          exact hs
        · rw [sessions_runs]
          exact hst.outside (not_lt.mp hconn)

/-- Nobody outside a pool, whose engines are all read-only, sees what its threads do : the database,
what was committed and all other sessions are those of the run without them. -/
theorem readPool_of_run (hsize : 0 < size) (host : Host T) (engines : ℕ → Engine)
    (hro : ∀ k < size, (engines k).readOnly = true) (db : Db) (events : List (SharedEvent T)) :
    let s := (runFrom (step host (.readPool size)) (init engines db) events).sessions
    let t := runFrom (Sessions.step host) (.init engines db) (events.filterMap (outside? size))
    s.db = t.db ∧ s.committed = t.committed ∧
      ∀ conn, size ≤ conn → s.session conn = t.session conn := by
  intro s t
  have hst : Invisible size s t :=
    invisible_run hsize (HandleState.sound_init _)
      ⟨rfl, rfl, fun _ _ => rfl, hro, fun _ _ _ hcall => by cases hcall⟩
  exact ⟨hst.db, hst.committed, hst.session⟩

/-! ## Two readers and a writer -/

/-- The engines of a pool of two, and a writer. -/
def poolAndWriter : ℕ → Engine := fun conn => { Engine.plain "n" none with readOnly := conn < 2 }

/-- `/a` is stored. One thread reads it, in three parts; another looks up `/b` and panics; the
writer removes `/a`. -/
def readsAndWrites : List (SharedEvent Unit) :=
  [.outside ⟨2, .at 1, .invoke (.write (.set .quiet [47, 97] ()))⟩,
    .handle ⟨0, .begin⟩, .handle ⟨0, .advance⟩, .part 0 (.at 2) (.invoke (.get [47, 97])),
    .handle ⟨1, .begin⟩, .handle ⟨1, .advance⟩, .part 1 (.at 2) (.invoke (.get [47, 97])),
    .part 0 (.at 2) .resume, .handle ⟨1, .release true⟩,
    .outside ⟨2, .at 3, .invoke (.remove [47, 97])⟩,
    .part 0 (.at 4) .resume, .handle ⟨0, .release false⟩]

theorem calls_of_run_sample :
    let s := runFrom (Shared.step Host.quiet (.readPool 2)) (init poolAndWriter Db.empty) readsAndWrites
    s.parts.map Prod.fst = [none, some 0, some 1, some 0, none, some 0] ∧ Unmixed s.parts :=
  ⟨by decide +kernel, (calls_of_run (h := .readPool 2) (by decide) Host.quiet poolAndWriter Db.empty
    readsAndWrites).2.1⟩

/-- The engine of the panic stays in the call it was in. -/
theorem stopped_of_run_sample :
    let s := runFrom (Shared.step Host.quiet (.readPool 2)) (init poolAndWriter Db.empty)
      (readsAndWrites ++ [.handle ⟨3, .begin⟩, .handle ⟨3, .advance⟩, .handle ⟨4, .begin⟩,
        .handle ⟨4, .advance⟩, .part 4 (.at 5) .resume])
    (s.sessions.session 1).call.isSome = true := by
  intro s
  have hstopped := stopped_of_run (h := .readPool 2) (by decide) Host.quiet poolAndWriter Db.empty
    readsAndWrites (k := 1) (by decide) (by decide +kernel) [.handle ⟨3, .begin⟩,
      .handle ⟨3, .advance⟩, .handle ⟨4, .begin⟩, .handle ⟨4, .advance⟩, .part 4 (.at 5) .resume]
  rw [hstopped]
  decide +kernel

/-- Without the readers, `/a` is stored and removed. -/
theorem readPool_of_run_sample :
    (runFrom (Shared.step Host.quiet (.readPool 2)) (init poolAndWriter Db.empty)
        readsAndWrites).sessions.db =
      (runFrom (Sessions.step Host.quiet) (.init poolAndWriter Db.empty)
        [⟨2, .at 1, .invoke (.write (.set .quiet [47, 97] ()))⟩,
          ⟨2, .at 3, .invoke (.remove [47, 97])⟩]).db :=
  (readPool_of_run (by decide : 0 < 2) Host.quiet poolAndWriter (by decide) Db.empty
    readsAndWrites).1

end Shared

end LocalCache
