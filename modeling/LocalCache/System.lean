import LocalCache.Engine

/-!
# Runs of any number of engines on one database

An `Event` is one atomic step of some engine : a whole write transaction, a removal, or one
part of a read. Between the parts of a read the row it found is a `Reader`, and any other
event may come in between. `System.run` is a run : the events in the order the database
serialised them. Each event carries its engine, what the outside answers it, and its world.

`uses` is a history variable : the rows used, in order, since the last import into their
namespace. No step reads it.
-/

namespace LocalCache

/-- A read between two of its parts. -/
inductive Reader (T : Type)
  /-- `get` or `get_if_fresh` with its row, before the payload is loaded. -/
  | found (e : Engine) (row : FileRow)
  /-- The same with the entry it will return, before the use is recorded. -/
  | loaded (e : Engine) (row : FileRow) (entry : CacheEntry T)
  /-- `touch` with its row, before the use is recorded. -/
  | touching (e : Engine) (row : FileRow)

namespace Reader

variable {T : Type}

def engine : Reader T → Engine
  | .found e _ | .loaded e _ _ | .touching e _ => e

def row : Reader T → FileRow
  | .found _ row | .loaded _ row _ | .touching _ row => row

end Reader

/-- A write of the engine's API. -/
inductive Write (T : Type)
  | set (src : Sources T) (path : Path) (payload : T)
  | batchSet (src : Sources T) (items : List (Path × T))
  | importEntries (src : Sources T) (records : List ExportRecord)
  | importFrom (source : Except Error (List FullRow))

/-- One atomic step of some engine. A reader is named by its index. -/
inductive Event (T : Type)
  | write (e : Engine) (w : World) (write : Write T)
  | remove (e : Engine) (w : World) (src : Sources T) (path : Path)
  | get (e : Engine) (w : World) (src : Sources T) (path : Path)
  | getIfFresh (e : Engine) (w : World) (src : Sources T) (path : Path)
  | touch (e : Engine) (w : World) (src : Sources T) (path : Path)
  | load (i : ℕ) (w : World) (src : Sources T)
  | finish (i : ℕ) (w : World)

/-- The database, the reads in progress, and the history of uses. -/
structure System (T : Type) where
  db : Db
  readers : List (Reader T)
  uses : List (String × ℕ)

section Steps

variable {T : Type}

namespace Write

def isImport : Write T → Bool
  | .set _ _ _ | .batchSet _ _ => false
  | .importEntries _ _ | .importFrom _ => true

def run (e : Engine) (w : World) : Write T → Db → Outcome Unit
  | .set src path payload, db => LocalCache.set e src w path payload db
  | .batchSet src items, db => (LocalCache.batchSet e src w items db).map fun _ => ()
  | .importEntries src records, db => (LocalCache.importEntries e src w records db).map fun _ => ()
  | .importFrom source, db => (LocalCache.importFrom e w source db).map fun _ => ()

end Write

namespace System

def init (db : Db) : System T := ⟨db, [], []⟩

/-- The state after a call of `e` with this outcome. -/
def after {α : Type} (s : System T) (e : Engine) (o : Outcome α) : System T :=
  { s with db := o.db, uses := s.uses ++ o.used.map fun id => (e.ns, id) }

/-- The state after an import by `e` : what it wrote are not uses, and earlier uses of its
namespace say no more about the order. -/
def afterImport {α : Type} (s : System T) (e : Engine) (o : Outcome α) : System T :=
  { s with db := o.db, uses := s.uses.filter fun u => u.1 ≠ e.ns }

/-- Start a read that found a row. -/
def start (s : System T) (found : Except Error (Option FileRow)) (reader : FileRow → Reader T) :
    System T :=
  match found with
  | .ok (some row) => { s with readers := s.readers ++ [reader row] }
  | .ok none | .error _ => s

def step (s : System T) : Event T → System T
  | .write e w write =>
    if write.isImport then s.afterImport e (write.run e w s.db) else s.after e (write.run e w s.db)
  | .remove e w src path => s.after e (LocalCache.remove e src w path s.db)
  | .get e w src path => s.start (getFind e src w path s.db) (.found e)
  | .getIfFresh e w src path => s.start (getIfFreshFind e src w path s.db) (.found e)
  | .touch e w src path => s.start (touchFind e src w path s.db) (.touching e)
  | .load i w src =>
    match s.readers[i]? with
    | some (.found e row) =>
      match loadEntry src w row s.db with
      | .ok (some entry) => { s with readers := s.readers.set i (.loaded e row entry) }
      | .ok none | .error _ => { s with readers := s.readers.eraseIdx i }
    | _ => s
  | .finish i w =>
    match s.readers[i]? with
    | some (.loaded e row entry) =>
      { s.after e (finishRead e w row entry s.db) with readers := s.readers.eraseIdx i }
    | some (.touching e row) =>
      { s.after e (finishTouch e w row s.db) with readers := s.readers.eraseIdx i }
    | _ => s

def run (s : System T) (events : List (Event T)) : System T := events.foldl step s

/-- Some run from `db` reaches the state. -/
def Reached (db : Db) (s : System T) : Prop := ∃ events, (init db).run events = s

end System

end Steps

end LocalCache
