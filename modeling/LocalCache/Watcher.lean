import LocalCache.Addressing
import LocalCache.Channels
import LocalCache.OneShot

/-!
# Watchers

A `CacheWatcher` removes the entries of the files that the operating system reports as changed,
and sends a notification for each on a bounded channel. Its callback has an engine of its own, the
session `w`, behind a lock. For every path it asks whether there is an entry, removes it, and sends :
three parts, between which other sessions may write and the receiver may receive. A
`CacheDebouncedWatcher` drops the repeated paths of a window first, and takes its lock for one path
at a time.

`delivered`, `removed` and `failures` are history variables : the paths the callback was given, and
those whose removal returned, and failed, each with its reason.

A watcher is one more session, that removes (`removes_of_run`). Every notification stands for a
removal that returned, in the order of the reports, and every such removal is notified or counted as
dropped (`accounts_of_run`). When nobody interferes, a callback removes exactly the entries of its
paths, and offers one notification for each (`callback_of_quiet`); what a window repeats makes no
difference (`debounced_eq_plain`).
-/

namespace LocalCache

/-! ## What the operating system reports -/

/-- `notify::event::ModifyKind`. -/
inductive ModifyKind
  | any
  | data
  | metadata
  | name
  | other
  deriving DecidableEq, Repr

/-- `notify::EventKind`. -/
inductive EventKind
  | any
  | access
  | create
  | modify (kind : ModifyKind)
  | remove
  | other
  deriving DecidableEq, Repr

inductive InvalidationReason
  | fileModified
  | fileRemoved
  | fileRenamed
  deriving DecidableEq, Repr

structure WatchEvent where
  path : Path
  reason : InvalidationReason
  deriving DecidableEq, Repr

/-- A create on a watched path means truncate and rewrite. -/
def classifyEvent : EventKind → Option InvalidationReason
  | .modify .data | .modify .metadata | .modify .any | .modify .other => some .fileModified
  | .remove => some .fileRemoved
  | .create => some .fileModified
  | .modify .name => some .fileRenamed
  | .access | .any | .other => none

/-- `Path::components`, by which paths are equal : whether there is a root, and the names. An empty one
is none, and `.` is one only where it starts the path. -/
def components (path : Path) : Bool × List (List UInt8) :=
  let names := path.splitOn 47
  (path.head? = some 47, (names.take 1).filter (fun name => name ≠ []) ++
    names.tail.filter fun name => name ≠ [] ∧ name ≠ [46])

/-- The paths not yet seen, each once, where it comes first. -/
def unseen : List Path → List Path → List Path
  | _, [] => []
  | seen, path :: rest =>
    if ∃ p ∈ seen, components p = components path then unseen seen rest
    else path :: unseen (path :: seen) rest

/-! ## The callback -/

inductive WatcherKind
  | plain
  | debounced
  deriving DecidableEq, Repr

/-- Where the callback is : at no report, before a path of one, before the removal of one, or
before its notification. -/
inductive Callback
  | idle
  | checking (reason : InvalidationReason) (paths : List Path)
  | removing (reason : InvalidationReason) (path : Path) (rest : List Path)
  | sending (reason : InvalidationReason) (path : Path) (rest : List Path)
  deriving DecidableEq, Repr

/-- What the callback has still to remove. -/
def Callback.todo : Callback → List WatchEvent
  | .idle => []
  | .checking reason paths => paths.map (⟨·, reason⟩)
  | .removing reason path rest => (path :: rest).map (⟨·, reason⟩)
  | .sending reason _ rest => rest.map (⟨·, reason⟩)

/-- What it has removed and not notified yet. -/
def Callback.pending : Callback → List WatchEvent
  | .sending reason path _ => [⟨path, reason⟩]
  | .idle | .checking _ _ | .removing _ _ _ => []

/-- The watcher's callback holds the engine's lock. -/
def Callback.locked (kind : WatcherKind) : Callback → Bool
  | .idle => false
  | .removing _ _ _ => true
  | .checking _ _ | .sending _ _ _ => kind = .plain

/-- A watcher and the sessions of its database. -/
structure Watching (T : Type) where
  sessions : Sessions T
  poisoned : Bool
  callback : Callback
  channel : Channel WatchEvent
  droppedEvents : ℕ
  failedInvalidations : ℕ
  delivered : List WatchEvent
  removed : List WatchEvent
  failures : List WatchEvent

/-- A step of another session, a report of the operating system or of the debouncer, the next part
of the callback, a reception, or a panic of a thread that holds the engine's lock. -/
inductive WatchStep (T : Type)
  | session (ev : SessionEvent T)
  | notify (kind : EventKind) (paths : List Path)
  | debounce (paths : List Path)
  | callback (env : Env T)
  | recv
  | panic

namespace Watching

variable {T : Type}

/-- `sync_channel(256)`. -/
def capacity : ℕ := 256

def init (engines : ℕ → Engine) (db : Db) : Watching T where
  sessions := .init engines db
  poisoned := false
  callback := .idle
  channel := .new
  droppedEvents := 0
  failedInvalidations := 0
  delivered := []
  removed := []
  failures := []

/-- The callback is called with these paths. -/
def starts (s : Watching T) (reason : InvalidationReason) (paths : List Path) : Watching T :=
  { s with
    callback := .checking reason paths
    delivered := s.delivered ++ paths.map (⟨·, reason⟩) }

variable (host : Host T) (kind : WatcherKind) (w : ℕ)

/-- The watcher's own engine. -/
def engine (s : Watching T) : Engine := (s.sessions.session w).engine

/-- The next path : only a definite `Ok(false)` of `contains` skips it. A debounced watcher takes
its lock here, and skips the path if that fails. -/
def checks (s : Watching T) (env : Env T) (reason : InvalidationReason) (path : Path)
    (rest : List Path) : Watching T :=
  if kind = .debounced ∧ s.poisoned = true then { s with callback := .checking reason rest }
  else
    match contains (s.engine w) env.src env.world path s.sessions.db with
    | .ok false => { s with callback := .checking reason rest }
    | .ok true | .error _ => { s with callback := .removing reason path rest }

/-- The removal is a call of the watcher's engine. A failed one is counted, and not retried. -/
def removes (s : Watching T) (env : Env T) (reason : InvalidationReason) (path : Path)
    (rest : List Path) : Watching T :=
  let sessions := s.sessions.step host ⟨w, env, .invoke (.remove path)⟩
  match (remove (s.engine w) env.src env.world path s.sessions.db).result with
  | .error _ =>
    { s with
      sessions := sessions
      callback := .checking reason rest
      failedInvalidations := (s.failedInvalidations + 1) % 2 ^ 64
      failures := s.failures ++ [⟨path, reason⟩] }
  | .ok _ =>
    { s with
      sessions := sessions
      callback := .sending reason path rest
      removed := s.removed ++ [⟨path, reason⟩] }

/-- The notification is sent if the channel has room, and else counted. -/
def sends (s : Watching T) (reason : InvalidationReason) (path : Path) (rest : List Path) :
    Watching T :=
  { s with
    callback := .checking reason rest
    channel := s.channel.trySend capacity ⟨path, reason⟩
    droppedEvents :=
      if s.channel.HasRoom capacity then s.droppedEvents else (s.droppedEvents + 1) % 2 ^ 64 }

/-- The next part of the callback. -/
def goesOn (s : Watching T) (env : Env T) : Watching T :=
  match s.callback with
  | .idle => s
  | .checking _ [] => { s with callback := .idle }
  | .checking reason (path :: rest) => s.checks kind w env reason path rest
  | .removing reason path rest => s.removes host w env reason path rest
  | .sending reason path rest => s.sends reason path rest

/-- The watcher calls its callback for one report after the other. A plain one takes its lock once a
report, and skips the report if that fails. -/
def step (s : Watching T) : WatchStep T → Watching T
  | .session ev => if ev.conn = w then s else { s with sessions := s.sessions.step host ev }
  | .notify event paths =>
    if kind = .plain ∧ s.callback = .idle then
      match classifyEvent event with
      | none => s
      | some reason => if s.poisoned then s else s.starts reason paths
    else s
  | .debounce paths =>
    if kind = .debounced ∧ s.callback = .idle then s.starts .fileModified (unseen [] paths) else s
  | .callback env => s.goesOn host kind w env
  | .recv => { s with channel := s.channel.recv }
  | .panic => if s.callback.locked kind then s else { s with poisoned := true }

/-! ## What a watcher does to the sessions -/

section Runs

variable {host : Host T} {kind : WatcherKind} {w : ℕ} {s : Watching T} {engines : ℕ → Engine} {db : Db}

/-- The state after some run of the watcher and of the sessions. -/
def Reached (host : Host T) (kind : WatcherKind) (w : ℕ) (engines : ℕ → Engine) (db : Db)
    (s : Watching T) : Prop := ∃ steps, runFrom (step host kind w) (init engines db) steps = s

/-- The removal a session was called for. -/
def removal? (w : ℕ) (ev : SessionEvent T) : Option Path :=
  if ev.conn = w then
    match ev.action with
    | .invoke (.remove path) => some path
    | _ => none
  else none

/-- All of them, in order. -/
def removals (w : ℕ) (events : List (SessionEvent T)) : List Path := events.filterMap (removal? w)

/-- The removals that returned, or failed, by the responses to them. -/
def answered (ok : Bool) (paths : List Path) (responses : List (Response T)) : List Path :=
  ((paths.zip responses).filter fun call => call.2.result.isOk = ok).map Prod.fst

theorem answered_append {paths : List Path} {responses : List (Response T)}
    (hlength : paths.length = responses.length) (ok : Bool) (path : Path) (response : Response T) :
    answered ok (paths ++ [path]) (responses ++ [response]) =
      answered ok paths responses ++ if response.result.isOk = ok then [path] else [] := by
  rw [answered, List.zip_append hlength, List.filter_append, List.map_append, answered]
  congr 1
  rw [List.zip_cons_cons, List.zip_nil_right, List.filter_singleton]
  by_cases hok : response.result.isOk = ok <;> simp [hok]

theorem mem_answered {paths : List Path} {responses : List (Response T)}
    (hlength : paths.length = responses.length) {path : Path} (hpath : path ∈ paths) :
    path ∈ answered true paths responses ∨ path ∈ answered false paths responses := by
  rw [← List.map_fst_zip hlength.le] at hpath
  obtain ⟨call, hcall, rfl⟩ := List.mem_map.mp hpath
  cases hok : call.2.result.isOk with
  | true => exact Or.inl (List.mem_map_of_mem (List.mem_filter.mpr ⟨hcall, decide_eq_true hok⟩))
  | false => exact Or.inr (List.mem_map_of_mem (List.mem_filter.mpr ⟨hcall, decide_eq_true hok⟩))

/-- The watcher's session is in no call. These events of the sessions led here, in which it was
called for removals only, and the watcher keeps those that returned and those that failed. -/
structure Drives (host : Host T) (w : ℕ) (engines : ℕ → Engine) (db : Db)
    (events : List (SessionEvent T)) (s : Watching T) : Prop where
  run : s.sessions = runFrom (Sessions.step host) (.init engines db) events
  call : (s.sessions.session w).call = none
  removes : ∀ ev ∈ events, ev.conn = w → ∃ path, ev.action = .invoke (.remove path)
  length : (removals w events).length = (s.sessions.session w).responses.length
  returned : answered true (removals w events) (s.sessions.session w).responses =
    s.removed.map WatchEvent.path
  failed : answered false (removals w events) (s.sessions.session w).responses =
    s.failures.map WatchEvent.path

theorem removals_append_of_ne (events : List (SessionEvent T)) {ev : SessionEvent T} (h : ev.conn ≠ w) :
    removals w (events ++ [ev]) = removals w events := by
  rw [removals, List.filterMap_append, List.filterMap_cons, removal?, if_neg h, List.filterMap_nil,
    List.append_nil, removals]

theorem removals_append_remove (w : ℕ) (events : List (SessionEvent T)) (env : Env T) (path : Path) :
    removals w (events ++ [⟨w, env, .invoke (.remove path)⟩]) = removals w events ++ [path] := by
  rw [removals, List.filterMap_append, List.filterMap_cons, removal?, if_pos rfl, removals]
  rfl

/-- What a removal by the watcher does to its session. -/
theorem session_remove (host : Host T) (hcall : (s.sessions.session w).call = none) (env : Env T) (path : Path) :
    let session := (s.sessions.step host ⟨w, env, .invoke (.remove path)⟩).session w
    session.call = none ∧ session.responses = (s.sessions.session w).responses ++
      [⟨(remove (s.engine w) env.src env.world path s.sessions.db).result.map .flag,
        (remove (s.engine w) env.src env.world path s.sessions.db).evicted, none⟩] := by
  intro session
  have hstep : s.sessions.step host ⟨w, env, .invoke (.remove path)⟩ =
      s.sessions.after w (.ofOutcome (s.engine w) .flag none
        (remove (s.engine w) env.src env.world path s.sessions.db)) := by
    rw [Sessions.step, Sessions.part?, hcall]
    rfl
  refine ⟨?_, ?_⟩
  · show ((s.sessions.step host _).session w).call = none
    rw [hstep, Sessions.call_after]
    rfl
  · show ((s.sessions.step host _).session w).responses = _
    rw [hstep, Sessions.responses_after]
    rfl

/-- One more removal, that returned or failed. -/
theorem Drives.extend {events : List (SessionEvent T)} (h : Drives host w engines db events s)
    {s' : Watching T} {env : Env T} {path : Path}
    (hsessions : s'.sessions = s.sessions.step host ⟨w, env, .invoke (.remove path)⟩)
    (hreturned : s'.removed.map WatchEvent.path = s.removed.map WatchEvent.path ++
      if (remove (s.engine w) env.src env.world path s.sessions.db).result.isOk then [path] else [])
    (hfailed : s'.failures.map WatchEvent.path = s.failures.map WatchEvent.path ++
      if (remove (s.engine w) env.src env.world path s.sessions.db).result.isOk then [] else [path]) :
    Drives host w engines db (events ++ [⟨w, env, .invoke (.remove path)⟩]) s' := by
  obtain ⟨hcall, hresponses⟩ := session_remove host h.call env path
  have hok : ((remove (s.engine w) env.src env.world path s.sessions.db).result.map
      (Reply.flag : Bool → Reply T)).isOk =
        (remove (s.engine w) env.src env.world path s.sessions.db).result.isOk := by
    cases (remove (s.engine w) env.src env.world path s.sessions.db).result <;> rfl
  rw [← hsessions] at hcall hresponses
  refine ⟨?_, hcall, fun ev hev hconn => ?_, ?_, ?_, ?_⟩
  · rw [hsessions, runFrom_append, ← h.run]
    rfl
  · rcases List.mem_append.mp hev with hev | hev
    · exact h.removes ev hev hconn
    · rw [List.mem_singleton.mp hev]
      exact ⟨path, rfl⟩
  · rw [removals_append_remove, hresponses, List.length_append, List.length_append, h.length]
    rfl
  · rw [removals_append_remove, hresponses, answered_append h.length, h.returned, hreturned, hok]
  · rw [removals_append_remove, hresponses, answered_append h.length, h.failed, hfailed, hok]
    cases (remove (s.engine w) env.src env.world path s.sessions.db).result.isOk <;> rfl

theorem Drives.removes_step {events : List (SessionEvent T)} (h : Drives host w engines db events s)
    (env : Env T) (reason : InvalidationReason) (path : Path) (rest : List Path) :
    ∃ events', Drives host w engines db events' (s.removes host w env reason path rest) := by
  refine ⟨events ++ [⟨w, env, .invoke (.remove path)⟩], ?_⟩
  unfold Watching.removes
  dsimp only
  cases hresult : (remove (s.engine w) env.src env.world path s.sessions.db).result with
  | error err =>
    refine h.extend rfl ?_ ?_
    · rw [hresult]
      exact (List.append_nil _).symm
    · rw [hresult]
      exact List.map_append
  | ok flag =>
    refine h.extend rfl ?_ ?_
    · rw [hresult]
      exact List.map_append
    · rw [hresult]
      exact (List.append_nil _).symm

theorem Drives.step {events : List (SessionEvent T)} (h : Drives host w engines db events s)
    (e : WatchStep T) : ∃ events', Drives host w engines db events' (s.step host kind w e) := by
  -- a step that touches neither the sessions nor what was removed
  have hsame : ∀ s' : Watching T, s'.sessions = s.sessions → s'.removed = s.removed →
      s'.failures = s.failures → ∃ events', Drives host w engines db events' s' :=
    fun s' hsessions hremoved hfailures => by
      refine ⟨events, ?_, ?_, h.removes, ?_, ?_, ?_⟩
      · rw [hsessions]
        exact h.run
      · rw [hsessions]
        exact h.call
      · rw [hsessions]
        exact h.length
      · rw [hsessions, hremoved]
        exact h.returned
      · rw [hsessions, hfailures]
        exact h.failed
  cases e with
  | session ev =>
    rw [Watching.step]
    split_ifs with hconn
    · exact ⟨events, h⟩
    · have hother : (s.sessions.step host ev).session w = s.sessions.session w :=
        Sessions.session_step_of_ne (Ne.symm hconn)
      refine ⟨events ++ [ev], ?_, ?_, fun ev' hev' hw => ?_, ?_, ?_, ?_⟩
      · rw [runFrom_append, ← h.run]
        rfl
      · show ((s.sessions.step host ev).session w).call = none
        rw [hother]
        exact h.call
      · rcases List.mem_append.mp hev' with hev' | hev'
        · exact h.removes ev' hev' hw
        · rw [List.mem_singleton.mp hev'] at hw
          exact absurd hw hconn
      · show _ = ((s.sessions.step host ev).session w).responses.length
        rw [hother, removals_append_of_ne events hconn]
        exact h.length
      · show answered true _ ((s.sessions.step host ev).session w).responses = _
        rw [hother, removals_append_of_ne events hconn]
        exact h.returned
      · show answered false _ ((s.sessions.step host ev).session w).responses = _
        rw [hother, removals_append_of_ne events hconn]
        exact h.failed
  | notify event paths =>
    rw [Watching.step]
    split_ifs
    · cases classifyEvent event <;> exact ⟨events, h⟩
    · cases classifyEvent event with
      | none => exact ⟨events, h⟩
      | some reason => exact hsame _ rfl rfl rfl
    · exact ⟨events, h⟩
  | debounce paths =>
    rw [Watching.step]
    split_ifs
    · exact hsame _ rfl rfl rfl
    · exact ⟨events, h⟩
  | callback env =>
    rw [Watching.step, goesOn]
    split
    · exact ⟨events, h⟩
    · exact hsame _ rfl rfl rfl
    · unfold checks
      split_ifs
      · exact hsame _ rfl rfl rfl
      · split <;> exact hsame _ rfl rfl rfl
    · exact h.removes_step _ _ _ _
    · exact hsame _ rfl rfl rfl
  | recv => exact hsame _ rfl rfl rfl
  | panic =>
    rw [Watching.step]
    split_ifs
    · exact ⟨events, h⟩
    · exact hsame _ rfl rfl rfl

theorem Reached.drives (hs : Reached host kind w engines db s) :
    ∃ events, Drives host w engines db events s := by
  obtain ⟨steps, rfl⟩ := hs
  have hstep : ∀ (s : Watching T) (e : WatchStep T), (∃ events, Drives host w engines db events s) →
      ∃ events, Drives host w engines db events (s.step host kind w e) := by
    rintro s e ⟨events, h⟩
    exact h.step e
  exact runFrom_induction hstep steps ⟨[], rfl, rfl, by simp, rfl, rfl, rfl⟩

/-! ## Notifications -/

/-- Every removal that returned is notified, counted as dropped, or about to be notified, in the order
of the reports. -/
structure Accounts (s : Watching T) : Prop where
  channel : s.channel.Sound capacity
  notified : s.removed = s.channel.offered ++ s.callback.pending
  dropped : s.droppedEvents = s.channel.lost % 2 ^ 64
  failed : s.failedInvalidations = s.failures.length % 2 ^ 64
  order : ∃ done, s.delivered = done ++ s.callback.todo ∧ s.removed.Sublist done ∧
    s.failures.Sublist done

theorem Accounts.checks (h : Accounts s) {reason : InvalidationReason} {path : Path} {rest : List Path}
    (hcallback : s.callback = .checking reason (path :: rest)) (env : Env T) :
    Accounts (s.checks kind w env reason path rest) := by
  obtain ⟨done, hdelivered, hremoved, hfailures⟩ := h.order
  have hnotified := h.notified
  rw [hcallback] at hdelivered hnotified
  -- a skipped path is done with, and one to remove is not
  have hskip : Accounts { s with callback := .checking reason rest } := by
    refine ⟨h.channel, hnotified, h.dropped, h.failed, done ++ [⟨path, reason⟩], ?_,
      hremoved.trans (List.sublist_append_left _ _), hfailures.trans (List.sublist_append_left _ _)⟩
    rw [List.append_assoc]
    exact hdelivered
  unfold Watching.checks
  split_ifs
  · exact hskip
  · split
    · exact hskip
    · exact ⟨h.channel, hnotified, h.dropped, h.failed, done, hdelivered, hremoved, hfailures⟩
    · exact ⟨h.channel, hnotified, h.dropped, h.failed, done, hdelivered, hremoved, hfailures⟩

theorem Accounts.removes (h : Accounts s) {reason : InvalidationReason} {path : Path} {rest : List Path}
    (hcallback : s.callback = .removing reason path rest) (env : Env T) :
    Accounts (s.removes host w env reason path rest) := by
  obtain ⟨done, hdelivered, hremoved, hfailures⟩ := h.order
  have hnotified := h.notified
  rw [hcallback] at hdelivered hnotified
  have hdone : s.delivered = (done ++ [⟨path, reason⟩]) ++ rest.map (⟨·, reason⟩) := by
    rw [List.append_assoc]
    exact hdelivered
  unfold Watching.removes
  dsimp only
  split
  · refine ⟨h.channel, hnotified, h.dropped, ?_, _, hdone,
      hremoved.trans (List.sublist_append_left _ _), hfailures.append (List.Sublist.refl _)⟩
    rw [List.length_append, h.failed, Nat.mod_add_mod]
    rfl
  · refine ⟨h.channel, ?_, h.dropped, h.failed, _, hdone, hremoved.append (List.Sublist.refl _),
      hfailures.trans (List.sublist_append_left _ _)⟩
    show s.removed ++ [⟨path, reason⟩] = s.channel.offered ++ [⟨path, reason⟩]
    rw [hnotified, Callback.pending, List.append_nil]

theorem Accounts.sends (h : Accounts s) {reason : InvalidationReason} {path : Path} {rest : List Path}
    (hcallback : s.callback = .sending reason path rest) : Accounts (s.sends reason path rest) := by
  obtain ⟨done, hdelivered, hremoved, hfailures⟩ := h.order
  have hnotified := h.notified
  rw [hcallback] at hdelivered hnotified
  refine ⟨h.channel.trySend _, ?_, ?_, h.failed, done, hdelivered, hremoved, hfailures⟩
  · show s.removed = (s.channel.trySend capacity _).offered ++ []
    rw [hnotified, Channel.offered_trySend, List.append_nil]
    rfl
  · show (if s.channel.HasRoom capacity then s.droppedEvents else (s.droppedEvents + 1) % 2 ^ 64) =
      (s.channel.trySend capacity ⟨path, reason⟩).lost % 2 ^ 64
    rw [Channel.lost_trySend]
    split_ifs
    · exact h.dropped
    · rw [h.dropped, Nat.mod_add_mod]

theorem Accounts.starts (h : Accounts s) (hidle : s.callback = .idle) (reason : InvalidationReason)
    (paths : List Path) : Accounts (s.starts reason paths) := by
  obtain ⟨done, hdelivered, hremoved, hfailures⟩ := h.order
  have hnotified := h.notified
  rw [hidle] at hdelivered hnotified
  refine ⟨h.channel, hnotified, h.dropped, h.failed, done, ?_, hremoved, hfailures⟩
  show s.delivered ++ _ = _
  rw [hdelivered, Callback.todo, List.append_nil]
  rfl

theorem Accounts.step (h : Accounts s) (e : WatchStep T) : Accounts (s.step host kind w e) := by
  cases e with
  | session ev =>
    rw [Watching.step]
    split_ifs
    · exact h
    · exact ⟨h.channel, h.notified, h.dropped, h.failed, h.order⟩
  | notify event paths =>
    rw [Watching.step]
    split_ifs with hidle
    · cases classifyEvent event <;> exact h
    · cases classifyEvent event with
      | none => exact h
      | some reason => exact h.starts hidle.2 reason paths
    · exact h
  | debounce paths =>
    rw [Watching.step]
    split_ifs with hidle
    · exact h.starts hidle.2 _ _
    · exact h
  | callback env =>
    rw [Watching.step, goesOn]
    split
    · exact h
    · next reason hcallback =>
      have hnotified := h.notified
      have horder := h.order
      rw [hcallback] at hnotified horder
      exact ⟨h.channel, hnotified, h.dropped, h.failed, horder⟩
    · next reason path rest hcallback => exact h.checks hcallback env
    · next reason path rest hcallback => exact h.removes hcallback env
    · next reason path rest hcallback => exact h.sends hcallback
  | recv =>
    refine ⟨h.channel.recv, ?_, ?_, h.failed, h.order⟩
    · show s.removed = s.channel.recv.offered ++ s.callback.pending
      rw [Channel.offered, Channel.offers_recv]
      exact h.notified
    · show s.droppedEvents = s.channel.recv.lost % 2 ^ 64
      rw [Channel.lost, Channel.offers_recv]
      exact h.dropped
  | panic =>
    rw [Watching.step]
    split_ifs
    · exact h
    · exact ⟨h.channel, h.notified, h.dropped, h.failed, h.order⟩

theorem Reached.accounts (hs : Reached host kind w engines db s) : Accounts s := by
  obtain ⟨steps, rfl⟩ := hs
  exact runFrom_induction (fun _ e h => h.step e) steps
    ⟨Channel.sound_new, rfl, rfl, rfl, [], rfl, .slnil, .slnil⟩

/-- What was received and what the channel holds, at most its capacity, are the notifications sent, in
order. Each stands for a removal that returned, of a path delivered, in the order of the deliveries.
A removal that returned is notified, or counted as dropped, or about to be one of both. -/
theorem accounts_of_run (hs : Reached host kind w engines db s) :
    s.channel.received ++ s.channel.queue = s.channel.sent ∧ s.channel.queue.length ≤ capacity ∧
      s.channel.sent.Sublist s.removed ∧ s.removed.Sublist s.delivered ∧
      s.removed.length = s.channel.sent.length + s.channel.lost + s.callback.pending.length ∧
      s.droppedEvents = s.channel.lost % 2 ^ 64 := by
  have h := hs.accounts
  obtain ⟨done, hdelivered, hremoved, -⟩ := h.order
  refine ⟨h.channel.fifo, h.channel.bounded, ?_, ?_, ?_, h.dropped⟩
  · rw [h.notified]
    exact (List.filter_sublist.map _).trans (List.sublist_append_left _ _)
  · rw [hdelivered]
    exact hremoved.trans (List.sublist_append_left _ _)
  · rw [h.notified, List.length_append, Channel.length_offers]

/-- A watcher is one more session : the sessions are in a run of their own, in which the watcher
only calls for the removal of paths delivered to it. The paths it keeps as removed are those whose
removal returned, and those it keeps as failed the others, each in the order of the calls, which is
that of the deliveries. -/
theorem removes_of_run (hs : Reached host kind w engines db s) :
    ∃ events : List (SessionEvent T), s.sessions = runFrom (Sessions.step host) (.init engines db) events ∧
      (∀ ev ∈ events, ev.conn = w → ∃ path, ev.action = .invoke (.remove path) ∧
        ∃ reason, ⟨path, reason⟩ ∈ s.delivered) ∧
      (removals w events).length = (s.sessions.session w).responses.length ∧
      answered true (removals w events) (s.sessions.session w).responses =
        s.removed.map WatchEvent.path ∧
      answered false (removals w events) (s.sessions.session w).responses =
        s.failures.map WatchEvent.path ∧
      s.removed.Sublist s.delivered ∧ s.failures.Sublist s.delivered ∧
      s.failedInvalidations = s.failures.length % 2 ^ 64 := by
  obtain ⟨events, hdrives⟩ := hs.drives
  have haccounts := hs.accounts
  obtain ⟨done, hdelivered, hdone, hdone'⟩ := haccounts.order
  have hremoved : s.removed.Sublist s.delivered := by
    rw [hdelivered]
    exact hdone.trans (List.sublist_append_left _ _)
  have hfailures : s.failures.Sublist s.delivered := by
    rw [hdelivered]
    exact hdone'.trans (List.sublist_append_left _ _)
  refine ⟨events, hdrives.run, fun ev hev hconn => ?_, hdrives.length, hdrives.returned,
    hdrives.failed, hremoved, hfailures, haccounts.failed⟩
  obtain ⟨path, haction⟩ := hdrives.removes ev hev hconn
  have hpath : path ∈ removals w events :=
    List.mem_filterMap.mpr ⟨ev, hev, by rw [removal?, if_pos hconn, haction]⟩
  refine ⟨path, haction, ?_⟩
  rcases mem_answered hdrives.length hpath with hmem | hmem
  · rw [hdrives.returned] at hmem
    obtain ⟨e, he, rfl⟩ := List.mem_map.mp hmem
    exact ⟨e.reason, hremoved.subset he⟩
  · rw [hdrives.failed] at hmem
    obtain ⟨e, he, rfl⟩ := List.mem_map.mp hmem
    exact ⟨e.reason, hfailures.subset he⟩

end Runs

end Watching

/-! ## A callback that nobody disturbs -/

section Invalidated

variable {ns : String} {key : Path → String} {db : Db}

/-- Delete the row under a key. -/
def Sql.deleteKey (ns path : String) (db : Db) : Db :=
  Sql.deleteFiles (fun r => decide (Db.HasKey ns path r)) db

theorem countKey_pos_iff {path : String} : 0 < Sql.countKey ns path db ↔ db.HasPath ns path := by
  rw [Sql.countKey, List.length_pos_iff_exists_mem]
  simp only [List.mem_filter, decide_eq_true_eq]
  rfl

theorem hasPath_deleteKey {path path' : String} :
    (Sql.deleteKey ns path db).HasPath ns path' ↔ db.HasPath ns path' ∧ path' ≠ path := by
  constructor
  · rintro ⟨r, hr, hk⟩
    obtain ⟨hmem, hkept⟩ := Sql.mem_deleteFiles.mp hr
    exact ⟨⟨r, hmem, hk⟩, fun heq => (decide_eq_false_iff_not.mp hkept) (heq ▸ hk)⟩
  · rintro ⟨⟨r, hr, hk⟩, hne⟩
    exact ⟨r, Sql.mem_deleteFiles.mpr ⟨hr, decide_eq_false fun h => hne (hk.2.symm.trans h.2)⟩, hk⟩

/-- The paths that lead to an entry, each entry once, by the path that comes first. -/
def invalidated (ns : String) (key : Path → String) : Db → List Path → List Path
  | _, [] => []
  | db, path :: rest =>
    if 0 < Sql.countKey ns (key path) db then
      path :: invalidated ns key (Sql.deleteKey ns (key path) db) rest
    else invalidated ns key db rest

theorem invalidated_sublist : ∀ (db : Db) (paths : List Path), (invalidated ns key db paths).Sublist paths
  | _, [] => .slnil
  | db, path :: rest => by
    rw [invalidated]
    split_ifs
    · exact (invalidated_sublist _ rest).cons_cons path
    · exact (invalidated_sublist db rest).cons path

theorem mem_keys_invalidated {k : String} : ∀ (db : Db) (paths : List Path),
    k ∈ (invalidated ns key db paths).map key ↔ k ∈ paths.map key ∧ db.HasPath ns k
  | _, [] => by simp [invalidated]
  | db, path :: rest => by
    rw [invalidated]
    split_ifs with hcount
    · have hhas := countKey_pos_iff.mp hcount
      rw [List.map_cons, List.mem_cons, mem_keys_invalidated _ rest, hasPath_deleteKey, List.map_cons,
        List.mem_cons]
      by_cases hk : k = key path
      · simp [hk, hhas]
      · simp [hk]
    · have hnot : ¬db.HasPath ns (key path) := fun h => hcount (countKey_pos_iff.mpr h)
      rw [mem_keys_invalidated db rest, List.map_cons, List.mem_cons]
      by_cases hk : k = key path
      · simp [hk, hnot]
      · simp [hk]

theorem nodup_keys_invalidated : ∀ (db : Db) (paths : List Path),
    ((invalidated ns key db paths).map key).Nodup
  | _, [] => List.nodup_nil
  | db, path :: rest => by
    rw [invalidated]
    split_ifs
    · rw [List.map_cons, List.nodup_cons, mem_keys_invalidated, hasPath_deleteKey]
      exact ⟨fun h => h.2.2 rfl, nodup_keys_invalidated _ rest⟩
    · exact nodup_keys_invalidated db rest

/-- Spellings of one path lead to one entry. -/
def OneKey (key : Path → String) (paths : List Path) : Prop :=
  ∀ p ∈ paths, ∀ q ∈ paths, components p = components q → key p = key q

theorem unseen_sublist : ∀ seen paths : List Path, (unseen seen paths).Sublist paths
  | _, [] => .slnil
  | seen, path :: rest => by
    rw [unseen]
    split_ifs
    · exact (unseen_sublist seen rest).cons path
    · exact (unseen_sublist _ rest).cons_cons path

/-- The next path is seen from now on. -/
theorem OneKey.move {path : Path} {seen rest : List Path} (h : OneKey key (seen ++ path :: rest)) :
    OneKey key ((path :: seen) ++ rest) := fun p hp q hq =>
  h p (List.perm_middle.mem_iff.mpr hp) q (List.perm_middle.mem_iff.mpr hq)

theorem OneKey.skip {path : Path} {seen rest : List Path} (h : OneKey key (seen ++ path :: rest)) :
    OneKey key (seen ++ rest) := fun p hp q hq =>
  h p (List.perm_middle.mem_iff.mpr (List.mem_cons_of_mem path hp))
    q (List.perm_middle.mem_iff.mpr (List.mem_cons_of_mem path hq))

/-- The key of a path that was seen, in whatever spelling. -/
theorem OneKey.key_eq {path p : Path} {seen rest : List Path} (h : OneKey key (seen ++ path :: rest))
    (hp : p ∈ seen) (heq : components p = components path) : key path = key p :=
  (h p (List.mem_append_left _ hp) path (List.mem_append_right _ List.mem_cons_self) heq).symm

/-- A path seen before leads to no entry any more. -/
theorem invalidated_unseen : ∀ (paths : List Path) {db : Db} {seen : List Path},
    OneKey key (seen ++ paths) → (∀ path ∈ seen, ¬db.HasPath ns (key path)) →
      invalidated ns key db (unseen seen paths) = invalidated ns key db paths
  | [], _, _, _, _ => rfl
  | path :: rest, db, seen, hkeys, hseen => by
    by_cases hmem : ∃ p ∈ seen, components p = components path
    · obtain ⟨p, hp, heq⟩ := hmem
      have hcount : ¬0 < Sql.countKey ns (key path) db := fun h => by
        rw [hkeys.key_eq hp heq] at h
        exact hseen p hp (countKey_pos_iff.mp h)
      rw [unseen, if_pos ⟨p, hp, heq⟩, invalidated, if_neg hcount]
      exact invalidated_unseen rest hkeys.skip hseen
    · rw [unseen, if_neg hmem, invalidated, invalidated]
      split_ifs with hcount
      · have hseen' : ∀ p ∈ path :: seen, ¬(Sql.deleteKey ns (key path) db).HasPath ns (key p) := by
          intro p hp
          rw [hasPath_deleteKey]
          rcases List.mem_cons.mp hp with rfl | hp
          · exact fun h => h.2 rfl
          · exact fun h => hseen p hp h.1
        rw [invalidated_unseen rest hkeys.move hseen']
      · refine invalidated_unseen rest hkeys.move fun p hp => ?_
        rcases List.mem_cons.mp hp with rfl | hp
        · exact fun h => hcount (countKey_pos_iff.mpr h)
        · exact hseen p hp

/-- What repeats leads to no other entry. -/
theorem mem_keys_unseen {k : String} : ∀ (paths : List Path) {seen : List Path},
    OneKey key (seen ++ paths) →
      ((k ∈ (unseen seen paths).map key ∨ k ∈ seen.map key) ↔ k ∈ paths.map key ∨ k ∈ seen.map key)
  | [], _, _ => Iff.rfl
  | path :: rest, seen, hkeys => by
    by_cases hmem : ∃ p ∈ seen, components p = components path
    · obtain ⟨p, hp, heq⟩ := hmem
      have hkey : key path ∈ seen.map key := by
        rw [hkeys.key_eq hp heq]
        exact List.mem_map_of_mem hp
      rw [unseen, if_pos ⟨p, hp, heq⟩, mem_keys_unseen rest hkeys.skip, List.map_cons, List.mem_cons]
      by_cases hk : k = key path
      · simp [hk, hkey]
      · simp [hk]
    · have hrest := mem_keys_unseen (k := k) rest hkeys.move
      rw [List.map_cons, List.mem_cons] at hrest
      rw [unseen, if_neg hmem, List.map_cons, List.mem_cons, List.map_cons, List.mem_cons]
      tauto

/-- `/a/./b` and `/a/b` are equal paths, `./a` and `a` are not. -/
example : unseen [] [[47, 97, 47, 46, 47, 98], [47, 97, 47, 98], [46, 47, 97], [97]] =
    [[47, 97, 47, 46, 47, 98], [46, 47, 97], [97]] := by decide

end Invalidated

theorem Sql.deleteFiles_deleteKey (ns path : String) (paths : List String) (db : Db) :
    Sql.deleteFiles (fun r => decide (r.ns = ns ∧ r.path ∈ paths)) (Sql.deleteKey ns path db) =
      Sql.deleteFiles (fun r => decide (r.ns = ns ∧ r.path ∈ path :: paths)) db := by
  rw [Sql.deleteKey, Sql.deleteFiles_deleteFiles]
  refine Sql.deleteFiles_congr fun r _ => ?_
  rw [Bool.eq_iff_iff, Bool.or_eq_true, decide_eq_true_iff, decide_eq_true_iff, decide_eq_true_iff,
    List.mem_cons, Db.HasKey]
  tauto

theorem Sql.deleteFiles_of_not_hasPath {ns path : String} {paths : List String} {db : Db}
    (h : ¬db.HasPath ns path) :
    Sql.deleteFiles (fun r => decide (r.ns = ns ∧ r.path ∈ paths)) db =
      Sql.deleteFiles (fun r => decide (r.ns = ns ∧ r.path ∈ path :: paths)) db := by
  refine Sql.deleteFiles_congr fun r hr => decide_eq_decide.mpr ?_
  rw [List.mem_cons]
  refine and_congr_right fun hns => ⟨Or.inr, fun hpath => hpath.resolve_left fun heq => ?_⟩
  exact h ⟨r, hr, hns, heq⟩

namespace Watching

variable {T : Type} {host : Host T} {kind : WatcherKind} {w : ℕ} {env : Env T} {key : Path → String}

/-- The watcher can work : its lock is sound, its session in no call, and its engine writes. -/
structure Ready (w : ℕ) (s : Watching T) : Prop where
  sound : s.poisoned = false
  call : (s.sessions.session w).call = none
  writable : (s.engine w).readOnly = false

/-- Every statement answers, and every path resolves to its key. -/
structure Quiet (env : Env T) (key : Path → String) (paths : List Path) : Prop where
  fault : ∀ n, env.world.fault n = none
  resolves : ∀ path ∈ paths, ∃ resolved, resolvePathKey env.src path = .ok resolved ∧
    resolved.key = key path

theorem Quiet.contains {paths : List Path} (h : Quiet env key paths) {path : Path}
    (hpath : path ∈ paths) (e : Engine) (db : Db) :
    contains e env.src env.world path db = .ok (decide (0 < Sql.countKey e.ns (key path) db)) := by
  obtain ⟨resolved, hresolved, hkey⟩ := h.resolves path hpath
  rw [LocalCache.contains, hresolved]
  show (autocommit (select env.world fun db =>
    decide (0 < Sql.countKey e.ns resolved.key db)) db).1 = _
  rw [autocommit_select h.fault, hkey]

theorem Quiet.remove {paths : List Path} (h : Quiet env key paths) {path : Path}
    (hpath : path ∈ paths) {e : Engine} (hwritable : e.readOnly = false) (db : Db) :
    remove e env.src env.world path db =
      ⟨.ok (db.find? e.ns (key path)).isSome, Sql.deleteKey e.ns (key path) db, [], []⟩ := by
  obtain ⟨resolved, hresolved, hkey⟩ := h.resolves path hpath
  rw [remove_of_resolved hwritable h.fault hresolved, hkey]
  rfl

/-- What a callback did in the end : it removed the entries of its paths, and no other row, and
offered one notification for each. -/
structure Finished (w : ℕ) (key : Path → String) (reason : InvalidationReason) (paths : List Path)
    (s s' : Watching T) : Prop where
  idle : s'.callback = .idle
  db : s'.sessions.db = Sql.deleteFiles
    (fun r => decide (r.ns = (s.engine w).ns ∧ r.path ∈ paths.map key)) s.sessions.db
  offered : s'.channel.offered = s.channel.offered ++
    (invalidated (s.engine w).ns key s.sessions.db paths).map (⟨·, reason⟩)
  failures : s'.failures = s.failures

theorem removes_of_ok {s : Watching T} {path : Path} {found : Bool}
    (h : (remove (s.engine w) env.src env.world path s.sessions.db).result = .ok found)
    (reason : InvalidationReason) (rest : List Path) :
    s.removes host w env reason path rest = { s with
      sessions := s.sessions.step host ⟨w, env, .invoke (.remove path)⟩
      callback := .sending reason path rest
      removed := s.removed ++ [⟨path, reason⟩] } := by
  unfold removes
  simp only [h]

/-- One path that leads to an entry : it is removed and notified. -/
theorem callback_found (host : Host T) (kind : WatcherKind) {s : Watching T} (hs : s.Ready w) {reason : InvalidationReason} {path : Path}
    {rest : List Path} (hcallback : s.callback = .checking reason (path :: rest))
    (hquiet : Quiet env key (path :: rest))
    (hcount : 0 < Sql.countKey (s.engine w).ns (key path) s.sessions.db) :
    let s' := runFrom (step host kind w) s (List.replicate 3 (.callback env))
    s'.Ready w ∧ s'.engine w = s.engine w ∧ s'.callback = .checking reason rest ∧
      s'.sessions.db = Sql.deleteKey (s.engine w).ns (key path) s.sessions.db ∧
      s'.channel.offered = s.channel.offered ++ [⟨path, reason⟩] ∧ s'.failures = s.failures := by
  intro s'
  have hcontains := hquiet.contains List.mem_cons_self (s.engine w) s.sessions.db
  have hremove := hquiet.remove List.mem_cons_self hs.writable s.sessions.db
  have hchecks : s.step host kind w (.callback env) = { s with callback := .removing reason path rest } := by
    rw [step, goesOn, hcallback]
    dsimp only
    rw [checks, if_neg (by simp [hs.sound]), hcontains, decide_eq_true hcount]
  have hsessions : s.sessions.step host ⟨w, env, .invoke (.remove path)⟩ =
      s.sessions.after w (.ofOutcome (s.engine w) .flag none
        (remove (s.engine w) env.src env.world path s.sessions.db)) := by
    rw [Sessions.step, Sessions.part?, hs.call]
    rfl
  have hs' : s' = { s with
      sessions := s.sessions.step host ⟨w, env, .invoke (.remove path)⟩
      callback := .checking reason rest
      removed := s.removed ++ [⟨path, reason⟩]
      channel := s.channel.trySend capacity ⟨path, reason⟩
      droppedEvents :=
        if s.channel.HasRoom capacity then s.droppedEvents else (s.droppedEvents + 1) % 2 ^ 64 } := by
    show runFrom (step host kind w) s [.callback env, .callback env, .callback env] = _
    rw [runFrom_cons, hchecks, runFrom_cons, step, goesOn]
    dsimp only
    rw [removes_of_ok (s := { s with callback := .removing reason path rest })
      (congrArg Outcome.result hremove)]
    rfl
  have hengine : s'.engine w = s.engine w := by
    rw [hs', engine]
    dsimp only
    rw [hsessions]
    simp only [Sessions.after, Function.update_self]
    rfl
  refine ⟨⟨?_, ?_, ?_⟩, hengine, ?_, ?_, ?_, ?_⟩
  · rw [hs']
    exact hs.sound
  · rw [hs']
    exact (session_remove host hs.call env path).1
  · rw [hengine]
    exact hs.writable
  · rw [hs']
  · rw [hs']
    dsimp only
    rw [hsessions, hremove]
    rfl
  · rw [hs']
    exact Channel.offered_trySend _
  · rw [hs']

theorem callback_run (host : Host T) (kind : WatcherKind) : ∀ (paths : List Path) {s : Watching T} {reason : InvalidationReason},
    s.Ready w → s.callback = .checking reason paths → Quiet env key paths →
      ∃ n, Finished w key reason paths s (runFrom (step host kind w) s (List.replicate n (.callback env)))
  | [], s, reason, hs, hcallback, _ => by
    refine ⟨1, ?_⟩
    have hstep : runFrom (step host kind w) s (List.replicate 1 (.callback env)) =
        { s with callback := .idle } := by
      rw [List.replicate_one, runFrom_cons, runFrom_nil, step, goesOn, hcallback]
    rw [hstep]
    refine ⟨rfl, ?_, by simp [invalidated], rfl⟩
    have hnone : Sql.deleteFiles (fun r => decide (r.ns = (s.engine w).ns ∧ r.path ∈ [].map key))
        s.sessions.db = Sql.deleteFiles (fun _ => false) s.sessions.db :=
      Sql.deleteFiles_congr fun r _ => by simp
    rw [hnone, Sql.deleteFiles_false]
  | path :: rest, s, reason, hs, hcallback, hquiet => by
    have hquiet' : Quiet env key rest :=
      ⟨hquiet.fault, fun p hp => hquiet.resolves p (List.mem_cons_of_mem _ hp)⟩
    by_cases hcount : 0 < Sql.countKey (s.engine w).ns (key path) s.sessions.db
    · obtain ⟨hs', hengine, hcallback', hdb, hoffered, hfailures⟩ :=
        callback_found host kind hs hcallback hquiet hcount
      obtain ⟨n, hfinished⟩ := callback_run host kind rest hs' hcallback' hquiet'
      refine ⟨3 + n, ?_⟩
      rw [List.replicate_add, runFrom_append]
      refine ⟨hfinished.idle, ?_, ?_, hfinished.failures.trans hfailures⟩
      · rw [hfinished.db, hengine, hdb, Sql.deleteFiles_deleteKey]
        rfl
      · rw [hfinished.offered, hengine, hdb, hoffered, invalidated, if_pos hcount, List.append_assoc]
        rfl
    · have hstep : s.step host kind w (.callback env) = { s with callback := .checking reason rest } := by
        rw [step, goesOn, hcallback]
        dsimp only
        rw [checks, if_neg (by simp [hs.sound]),
          hquiet.contains List.mem_cons_self (s.engine w) s.sessions.db, decide_eq_false hcount]
      have hready : Ready w { s with callback := .checking reason rest } :=
        ⟨hs.sound, hs.call, hs.writable⟩
      obtain ⟨n, hfinished⟩ := callback_run host kind rest hready rfl hquiet'
      refine ⟨n + 1, ?_⟩
      rw [List.replicate_succ, runFrom_cons, hstep]
      refine ⟨hfinished.idle, ?_, ?_, hfinished.failures⟩
      · rw [hfinished.db]
        exact Sql.deleteFiles_of_not_hasPath fun h => hcount (countKey_pos_iff.mpr h)
      · rw [hfinished.offered, invalidated, if_neg hcount]
        rfl

/-- The run of one report of a plain watcher, and of one window of a debounced one. -/
theorem finished_of_notify (host : Host T) {s : Watching T} (hs : s.Ready w) (hidle : s.callback = .idle)
    {event : EventKind} {reason : InvalidationReason} (hreason : classifyEvent event = some reason)
    {paths : List Path} (hquiet : Quiet env key paths) :
    ∃ n, Finished w key reason paths s (runFrom (step host .plain w) s
      (.notify event paths :: List.replicate n (.callback env))) := by
  have hstep : s.step host .plain w (.notify event paths) = s.starts reason paths := by
    rw [step, if_pos ⟨rfl, hidle⟩, hreason]
    simp [hs.sound]
  have hready : Ready w (s.starts reason paths) := ⟨hs.sound, hs.call, hs.writable⟩
  obtain ⟨n, h⟩ := callback_run host .plain paths hready rfl hquiet
  refine ⟨n, ?_⟩
  rw [runFrom_cons, hstep]
  exact ⟨h.idle, h.db, h.offered, h.failures⟩

theorem finished_of_debounce (host : Host T) {s : Watching T} (hs : s.Ready w) (hidle : s.callback = .idle)
    {paths : List Path} (hquiet : Quiet env key paths) :
    ∃ n, Finished w key .fileModified (unseen [] paths) s (runFrom (step host .debounced w) s
      (.debounce paths :: List.replicate n (.callback env))) := by
  have hstep : s.step host .debounced w (.debounce paths) =
      s.starts .fileModified (unseen [] paths) := by
    rw [step, if_pos ⟨rfl, hidle⟩]
  have hready : Ready w (s.starts .fileModified (unseen [] paths)) :=
    ⟨hs.sound, hs.call, hs.writable⟩
  obtain ⟨n, h⟩ := callback_run host .debounced (unseen [] paths) hready rfl
    ⟨hquiet.fault, fun path hpath => hquiet.resolves path ((unseen_sublist [] paths).subset hpath)⟩
  refine ⟨n, ?_⟩
  rw [runFrom_cons, hstep]
  exact ⟨h.idle, h.db, h.offered, h.failures⟩

/-- A callback that nobody disturbs removes exactly the entries of its paths. It offers one
notification for each entry, in the order of the paths, and none for any other path. -/
theorem callback_of_quiet (host : Host T) {s : Watching T} (hs : s.Ready w) (hidle : s.callback = .idle)
    {event : EventKind} {reason : InvalidationReason} (hreason : classifyEvent event = some reason)
    {paths : List Path} (hquiet : Quiet env key paths) :
    ∃ n, let s' := runFrom (step host .plain w) s (.notify event paths ::
        List.replicate n (.callback env))
      s'.callback = .idle ∧ s'.failures = s.failures ∧
      s'.sessions.db = Sql.deleteFiles
        (fun r => decide (r.ns = (s.engine w).ns ∧ r.path ∈ paths.map key)) s.sessions.db ∧
      ∃ hits : List Path, s'.channel.offered = s.channel.offered ++ hits.map (⟨·, reason⟩) ∧
        hits.Sublist paths ∧ (hits.map key).Nodup ∧
        ∀ k, k ∈ hits.map key ↔ k ∈ paths.map key ∧ s.sessions.db.HasPath (s.engine w).ns k := by
  obtain ⟨n, h⟩ := finished_of_notify host hs hidle hreason hquiet
  exact ⟨n, h.idle, h.failures, h.db, _, h.offered, invalidated_sublist _ _,
    nodup_keys_invalidated _ _, fun k => mem_keys_invalidated _ _⟩

/-- A debounced watcher that nobody disturbs removes and offers what a plain one does for the same
paths as they came, modified and repeated, if spellings of one path lead to one entry. -/
theorem debounced_eq_plain (host : Host T) {s : Watching T} (hs : s.Ready w) (hidle : s.callback = .idle)
    {event : EventKind} (hreason : classifyEvent event = some .fileModified) {paths : List Path}
    (hquiet : Quiet env key paths) (hkeys : OneKey key paths) :
    ∃ n m, let plain := runFrom (step host .plain w) s (.notify event paths ::
        List.replicate n (.callback env))
      let debounced := runFrom (step host .debounced w) s (.debounce paths ::
        List.replicate m (.callback env))
      plain.callback = .idle ∧ debounced.callback = .idle ∧
        plain.sessions.db = debounced.sessions.db ∧
        plain.channel.offered = debounced.channel.offered := by
  obtain ⟨n, hn⟩ := finished_of_notify host hs hidle hreason hquiet
  obtain ⟨m, hm⟩ := finished_of_debounce host hs hidle hquiet
  refine ⟨n, m, hn.idle, hm.idle, ?_, ?_⟩
  · rw [hn.db, hm.db]
    refine Sql.deleteFiles_congr fun r _ => decide_eq_decide.mpr (and_congr_right fun _ => ?_)
    have hmem := @mem_keys_unseen key r.path paths [] hkeys
    rw [List.map_nil] at hmem
    simpa using hmem.symm
  · rw [hn.offered, hm.offered, invalidated_unseen paths hkeys (by simp)]

/-! ## A file that changes twice -/

/-- `/a` is stored by one session; another is the watcher's. -/
def watchesOne : List (WatchStep Unit) :=
  [.session ⟨0, .at 1, .invoke (.write (.set .quiet [47, 97] ()))⟩]

/-- `/a` is reported twice, next to a file without an entry. -/
def oneChange : List (WatchStep Unit) :=
  watchesOne ++ [.notify (.modify .data) [[47, 97], [47, 98], [47, 97]], .callback (.at 2),
    .callback (.at 2), .callback (.at 2), .callback (.at 2), .callback (.at 2), .callback (.at 2), .recv]

theorem accounts_of_run_oneChange :
    let s := runFrom (step Host.quiet .plain 1) (init (fun _ => .plain "n" none) Db.empty) oneChange
    s.channel.received = [⟨[47, 97], .fileModified⟩] ∧ s.removed.length = 1 ∧
      s.droppedEvents = s.channel.lost % 2 ^ 64 :=
  ⟨by decide +kernel, by decide +kernel, (accounts_of_run ⟨oneChange, rfl⟩).2.2.2.2.2⟩

theorem removes_of_run_oneChange :
    let s := runFrom (step Host.quiet .plain 1) (init (fun _ => .plain "n" none) Db.empty) oneChange
    s.removed.map WatchEvent.path = [[47, 97]] ∧ ∃ events : List (SessionEvent Unit),
      answered true (removals 1 events) (s.sessions.session 1).responses =
        s.removed.map WatchEvent.path := by
  obtain ⟨events, -, -, -, h, -⟩ := @removes_of_run Unit Host.quiet .plain 1 _
    (fun _ => .plain "n" none) Db.empty ⟨oneChange, rfl⟩
  exact ⟨by decide +kernel, events, h⟩

/-- The text of a path. -/
def pathText (path : Path) : String := (fromUtf8 path).getD ""

theorem quiet_of_texts (now : ℤ) {paths : List Path}
    (h : (paths.all fun path => (fromUtf8 path).isSome) = true) :
    Quiet (Env.at now) pathText paths := by
  refine ⟨fun _ => rfl, fun path hpath => ?_⟩
  obtain ⟨text, htext⟩ := Option.isSome_iff_exists.mp (List.all_eq_true.mp h path hpath)
  refine ⟨⟨true, path, text⟩, ?_, ?_⟩
  · show (pathToStr path).map _ = _
    rw [pathToStr, htext]
    rfl
  · rw [pathText, htext]
    rfl

theorem callback_of_quiet_watchesOne :
    let s := runFrom (step Host.quiet .plain 1) (init (fun _ => .plain "n" none) Db.empty) watchesOne
    ∃ n, (runFrom (step Host.quiet .plain 1) s (.notify .remove [[47, 97], [47, 98]] ::
      List.replicate n (.callback (.at 2)))).callback = .idle := by
  intro s
  have hready : s.Ready 1 := ⟨rfl, rfl, rfl⟩
  have hquiet : Quiet (Env.at 2) pathText [[47, 97], [47, 98]] := quiet_of_texts 2 (by decide +kernel)
  have hreason : classifyEvent .remove = some .fileRemoved := rfl
  obtain ⟨n, h⟩ := callback_of_quiet Host.quiet hready rfl hreason hquiet
  exact ⟨n, h.1⟩

theorem debounced_eq_plain_watchesOne :
    let s := runFrom (step Host.quiet .plain 1) (init (fun _ => .plain "n" none) Db.empty) watchesOne
    ∃ n m, (runFrom (step Host.quiet .plain 1) s (.notify .create [[47, 97], [47, 97]] ::
        List.replicate n (.callback (.at 2)))).channel.offered =
      (runFrom (step Host.quiet .debounced 1) s (.debounce [[47, 97], [47, 97]] ::
        List.replicate m (.callback (.at 2)))).channel.offered := by
  intro s
  have hready : s.Ready 1 := ⟨rfl, rfl, rfl⟩
  have hquiet : Quiet (Env.at 2) pathText [[47, 97], [47, 97]] := quiet_of_texts 2 (by decide +kernel)
  have hreason : classifyEvent .create = some .fileModified := rfl
  have hkeys : OneKey pathText [[47, 97], [47, 97]] := by simp [OneKey]
  obtain ⟨n, m, h⟩ := debounced_eq_plain Host.quiet hready rfl hreason hquiet hkeys
  exact ⟨n, m, h.2.2.2⟩

end Watching

end LocalCache
