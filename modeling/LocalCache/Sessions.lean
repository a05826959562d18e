import LocalCache.Entries
import LocalCache.Query
import LocalCache.Paging
import LocalCache.Runs
import Mathlib.Logic.Function.Basic

/-!
# Sessions : every call, one atomic part at a time

A `Session` is an engine with the call it is in the middle of. Any number of sessions share
one database, and an event takes one of them through the next atomic part of its call : a
transaction, an autocommit statement, or what the code does between two of them. Between two
parts of a call any other session may take any number of steps. What the outside answers comes
with each event : faults, clocks, files.

`committed` is a history variable, the entries as the writes committed them, in order. No step
reads it, nor `Judged.now`, `Judged.since` and `Response.judged`, which say when a cleanup judged
a path and which row a read returned.
-/

namespace LocalCache

/-! ## Calls -/

/-- What one step asks of the outside. -/
structure Env (T : Type) where
  world : World
  src : Sources T
  /-- `Path::exists`. -/
  exists_ : String → Bool

/-- What all sessions share besides the database. -/
structure Host (T : Type) where
  query : QueryLib T
  features : Features
  aead : Aead

/-- A call of an engine's API. -/
inductive Call (T : Type)
  | write (write : Write T)
  | remove (path : Path)
  | get (path : Path)
  | getIfFresh (path : Path)
  | touch (path : Path)
  | query (q : Query)
  | cleanupMissingFiles (size : ℕ)
  | cleanupExpired (size : ℕ)
  | purgeStaleVersions
  | rotateEncryptionKey (nonces : ℕ → Option Nonce) (maxRows maxBytes : ℕ) (newKey : List UInt8)

/-- What a call returns when it succeeds. -/
inductive Reply (T : Type)
  | unit
  | batch (report : BatchSetReport)
  | count (n : ℕ)
  | flag (b : Bool)
  | entry (found : Option (CacheEntry T))
  | report (report : QueryReport T)

/-- A call's result, the paths it passed to the eviction callback, and the row it read. -/
structure Response (T : Type) where
  result : Except Error (Reply T)
  evicted : List String
  judged : Option FileRow

/-! ## Cleanups -/

inductive CleanupKind
  | missing
  | expired (ttl : ℕ)
  deriving DecidableEq, Repr

/-- A path a cleanup judged gone, by the clock `now`, when `since` entries had been
committed. -/
structure Judged where
  path : String
  now : ℤ
  since : ℕ
  deriving DecidableEq, Repr

/-- A page between its read and its deletions. -/
structure CleanupPage where
  left : List FileRow
  gone : List Judged
  last : Bool
  deriving DecidableEq, Repr

/-- A cleanup : between two pages, or within one. -/
structure Cleaning where
  kind : CleanupKind
  size : ℕ
  cursor : String
  removed : ℕ
  page : Option CleanupPage
  deriving DecidableEq, Repr

/-- A call between two of its parts. -/
inductive Ongoing (T : Type)
  | found (row : FileRow)
  | loaded (row : FileRow) (entry : CacheEntry T)
  | touching (row : FileRow)
  | querying (q : Query) (phase : QueryPhase T)
  | cleaning (c : Cleaning)

/-- What one part of a call did : the database after it, the ids of the rows it stored, the
engine's key, and how the call goes on. It returned one response, or none when a rotation ran
out of fuel. -/
structure Part (T : Type) where
  db : Db
  wrote : List ℕ
  key : Option Key
  next : Ongoing T ⊕ List (Response T)

section Parts

variable {T : Type} (e : Engine)

namespace Part

def goesOn (db : Db) (ongoing : Ongoing T) : Part T := ⟨db, [], e.encryptionKey, .inl ongoing⟩

def returned (db : Db) (result : Except Error (Reply T)) (row : Option FileRow) : Part T :=
  ⟨db, [], e.encryptionKey, .inr [⟨result, [], row⟩]⟩

def ofOutcome {α : Type} (reply : α → Reply T) (row : Option FileRow) (o : Outcome α) : Part T :=
  ⟨o.db, [], e.encryptionKey, .inr [⟨o.result.map reply, o.evicted, row⟩]⟩

/-- A write returned, having stored the rows it used. -/
def ofWrite (o : Outcome (Reply T)) : Part T := { ofOutcome e id none o with wrote := o.used }

end Part

/-- A write, with what it returns. -/
def Write.call (w : World) : Write T → Db → Outcome (Reply T)
  | .set src path payload, db => (LocalCache.set e src w path payload db).map fun _ => .unit
  | .batchSet src items, db => (LocalCache.batchSet e src w items db).map .batch
  | .importEntries src records, db => (LocalCache.importEntries e src w records db).map .count
  | .importFrom source, db => (LocalCache.importFrom e w source db).map .count

/-! ## One part -/

/-- A read found a row, none, or failed. -/
def Part.ofFound (db : Db) (none_ : Reply T) (ongoing : FileRow → Ongoing T) :
    Except Error (Option FileRow) → Part T
  | .error err => .returned e db (.error err) none
  | .ok none => .returned e db (.ok none_) none
  | .ok (some row) => .goesOn e db (ongoing row)

/-- `delete_by_other_version`, with the number of rows deleted. -/
def deleteByOtherVersion (w : World) (ns : String) (current : UInt32) : TxM ℕ :=
  statement w databaseError fun _ db =>
    .ok ((db.files.filter fun r => r.ns = ns ∧ r.payloadVersion ≠ current).length,
      Sql.deleteFiles (fun r => r.ns = ns ∧ r.payloadVersion ≠ current) db)

def purgeStaleVersions (w : World) (db : Db) : Outcome ℕ :=
  if e.readOnly then .ofError .readOnly db
  else
    let (result, db) := autocommit (deleteByOtherVersion w e.ns e.payloadVersion) db
    ⟨result, db, [], []⟩

/-- Whether a cleanup judges a row gone. -/
def CleanupKind.gone (env : Env T) (row : FileRow) : CleanupKind → Bool
  | .missing => !env.exists_ row.path
  | .expired ttl => isExpired (env.world.nowSecs 0) row.updatedAt (some ttl)

/-- The start of a cleanup. -/
def startCleaning (kind : CleanupKind) (size : ℕ) (db : Db) : Part T :=
  .goesOn e db (.cleaning ⟨kind, size, "", 0, none⟩)

/-- The next part of a cleanup : it reads a page, judges its next row, or deletes the rows of
the page that are gone. -/
def Cleaning.next (env : Env T) (commits : ℕ) (c : Cleaning) (db : Db) : Part T :=
  match c.page with
  | none =>
    match (autocommit (select env.world (Sql.pathsAfter e.ns c.cursor c.size)) db).1 with
    | .error err => .returned e db (.error err) none
    | .ok rows =>
      match rows.getLast? with
      | none => .returned e db (.ok (.count c.removed)) none
      | some last => .goesOn e db (.cleaning
          { c with cursor := last.path, page := some ⟨rows, [], rows.length < c.size⟩ })
  | some ⟨row :: left, gone, last⟩ =>
    let gone :=
      if c.kind.gone env row then gone ++ [⟨row.path, env.world.nowSecs 0, commits⟩] else gone
    .goesOn e db (.cleaning { c with page := some ⟨left, gone, last⟩ })
  | some ⟨[], gone, last⟩ =>
    let (deleted, db) :=
      if gone.isEmpty then (.ok 0, db)
      else transaction env.world (deletePathsInTx env.world e.ns (gone.map Judged.path)) db
    match deleted with
    | .error err => .returned e db (.error err) none
    | .ok k =>
      if last then .returned e db (.ok (.count (c.removed + k))) none
      else .goesOn e db (.cleaning { c with removed := c.removed + k, page := none })

variable (host : Host T)

/-- The first part of a call. A rotation has fuel for a page for each payload and one more. -/
def Call.start (env : Env T) (db : Db) : Call T → Part T
  | .write w => .ofWrite e (w.call e env.world db)
  | .remove path => .ofOutcome e .flag none (LocalCache.remove e env.src env.world path db)
  | .get path => .ofFound e db (.entry none) .found (getFind e env.src env.world path db)
  | .getIfFresh path =>
    .ofFound e db (.entry none) .found (getIfFreshFind e env.src env.world path db)
  | .touch path => .ofFound e db (.flag false) .touching (touchFind e env.src env.world path db)
  | .query q =>
    match QueryPhase.start host.query env.src e q with
    | .error err => .returned e db (.error err) none
    | .ok phase => .goesOn e db (.querying q phase)
  | .cleanupMissingFiles size =>
    if e.readOnly then .returned e db (.error .readOnly) none else startCleaning e .missing size db
  | .cleanupExpired size =>
    if e.readOnly then .returned e db (.error .readOnly) none
    else
      match e.ttl with
      | none => .returned e db (.ok (.count 0)) none
      | some ttl => startCleaning e (.expired ttl) size db
  | .purgeStaleVersions => .ofOutcome e .count none (LocalCache.purgeStaleVersions e env.world db)
  | .rotateEncryptionKey nonces maxRows maxBytes newKey =>
    match LocalCache.rotateEncryptionKey host.features host.aead nonces e env.world maxRows
        maxBytes (db.payloads.length + 1) newKey db with
    | none => ⟨db, [], e.encryptionKey, .inr []⟩
    | some o => ⟨o.db, [], o.key, .inr [⟨o.result.map .count, [], none⟩]⟩

/-- The next part of a call, when this many entries have been committed. -/
def Ongoing.next (env : Env T) (commits : ℕ) (db : Db) : Ongoing T → Part T
  | .found row =>
    match loadEntry env.src env.world row db with
    | .error err => .returned e db (.error err) none
    | .ok none => .returned e db (.ok (.entry none)) none
    | .ok (some entry) => .goesOn e db (.loaded row entry)
  | .loaded row entry => .ofOutcome e .entry (some row) (finishRead e env.world row entry db)
  | .touching row => .ofOutcome e .flag none (finishTouch e env.world row db)
  | .querying q phase =>
    match (autocommit (phase.step host.query env.src e env.world q) db).1 with
    | .error err => .returned e db (.error err) none
    | .ok (.inl phase) => .goesOn e db (.querying q phase)
    | .ok (.inr report) => .returned e db (.ok (.report report)) none
  | .cleaning c => c.next e env commits db

end Parts

/-! ## Sessions on one database -/

/-- An entry as a write committed it. -/
structure Committed where
  ns : String
  path : String
  metadata : FileMetadata
  updatedAt : ℤ
  payloadVersion : UInt32
  content : List UInt8
  encoding : String
  deriving DecidableEq, Repr

/-- A row with its payload, as a write commits it. -/
def Db.commit (db : Db) (r : FileRow) : Option Committed :=
  (db.payload? r.id).map fun p =>
    ⟨r.ns, r.path, r.metadata, r.updatedAt, r.payloadVersion, p.content, p.encoding⟩

/-- The entries under these ids. -/
def Db.commits (db : Db) (ids : List ℕ) : List Committed :=
  (db.files.filter fun r => r.id ∈ ids).filterMap db.commit

/-- An engine, the call it is in the middle of, and what its calls returned. -/
structure Session (T : Type) where
  engine : Engine
  call : Option (Ongoing T)
  responses : List (Response T)

/-- A session begins a call, or goes on with the one it is in. -/
inductive Action (T : Type)
  | invoke (call : Call T)
  | resume

/-- One step of the session `conn`. -/
structure SessionEvent (T : Type) where
  conn : ℕ
  env : Env T
  action : Action T

/-- The database and the sessions on it. -/
structure Sessions (T : Type) where
  db : Db
  session : ℕ → Session T
  committed : List Committed

namespace Sessions

variable {T : Type} (host : Host T)

/-- No session has called anything. What the database holds at the start is committed. -/
def init (engines : ℕ → Engine) (db : Db) : Sessions T :=
  ⟨db, fun conn => ⟨engines conn, none, []⟩, db.files.filterMap db.commit⟩

/-- The part an event runs. A session runs one call at a time. -/
def part? (s : Sessions T) (ev : SessionEvent T) : Option (Part T) :=
  match ev.action, (s.session ev.conn).call with
  | .invoke call, none => some (call.start (s.session ev.conn).engine host ev.env s.db)
  | .resume, some ongoing =>
    some (ongoing.next (s.session ev.conn).engine host ev.env s.committed.length s.db)
  | _, _ => none

def after (s : Sessions T) (conn : ℕ) (part : Part T) : Sessions T where
  db := part.db
  session := Function.update s.session conn
    { engine := { (s.session conn).engine with encryptionKey := part.key }
      call := part.next.getLeft?
      responses := (s.session conn).responses ++ part.next.getRight?.getD [] }
  committed := s.committed ++ part.db.commits part.wrote

def step (s : Sessions T) (ev : SessionEvent T) : Sessions T :=
  match s.part? host ev with
  | none => s
  | some part => s.after ev.conn part

/-- Some run of sessions from a database reaches the state. -/
def Reached (engines : ℕ → Engine) (db : Db) (s : Sessions T) : Prop :=
  ∃ events, runFrom (step host) (init engines db) events = s

end Sessions

/-! ## A quiet outside, for examples -/

/-- No query filters, and no payload is sealed. -/
def Host.quiet : Host Unit where
  query :=
    { like _ _ := true
      glob _ _ := true
      compileGlob _ := .ok []
      jsonNumber _ _ := .ok none
      toValue _ := .ok .null
      toText _ := .ok "" }
  features := ⟨true, true⟩
  aead := ⟨fun _ _ _ _ => none, fun _ _ _ _ => none⟩

/-- Nothing fails, the clock in seconds stands at `now`, and no path exists. -/
def Env.at (now : ℤ) : Env Unit := ⟨{ World.quiet with nowSecs _ := now }, .quiet, fun _ => false⟩

end LocalCache
