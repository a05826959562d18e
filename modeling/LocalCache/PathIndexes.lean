import Mathlib.Data.List.Zip
import Mathlib.Data.Prod.Lex
import LocalCache.Glob
import LocalCache.Quoting
import LocalCache.Repository

/-!
# Dropping a path index

Callers drop the indexes that earlier releases created, by the end of their names.
`dropPathIndex` resolves the name in the catalog without regard to ASCII case, checks that the
object is an index of the kind that localcache creates, and puts the catalog's own spelling in
quotes into a DROP. Three notions of equal names meet here : the program's (`identifierEq`), the
one by which SQLite looks up an index (`Sqlite.SameName`), and the reading of the quoted name. They
agree, so a call drops one index of localcache's own or nothing (`dropPathIndex_spec`).
-/

namespace LocalCache

/-! ## The catalog -/

/-- How an index came to be : `CREATE INDEX`, or a constraint of its table. -/
inductive IndexOrigin
  | createIndex
  | uniqueConstraint
  | primaryKey
  deriving DecidableEq, Repr

def IndexOrigin.text : IndexOrigin → String
  | .createIndex => "c"
  | .uniqueConstraint => "u"
  | .primaryKey => "pk"

/-- What a column of an index holds. -/
inductive IndexTarget
  | column (cid : ℕ) (name : String)
  | rowid
  | expression
  deriving DecidableEq, Repr

structure IndexColumn where
  target : IndexTarget
  descending : Bool
  collation : Option String
  deriving DecidableEq, Repr

/-- An index : its key, and the columns SQLite adds to find the row. -/
structure IndexShape where
  unique : Bool
  origin : IndexOrigin
  hasWhere : Bool
  keyColumns : List IndexColumn
  auxiliary : List IndexColumn
  deriving DecidableEq, Repr

inductive ObjectKind
  | table
  | index (shape : IndexShape)
  | view
  | trigger
  deriving DecidableEq, Repr

def ObjectKind.text : ObjectKind → String
  | .table => "table"
  | .index _ => "index"
  | .view => "view"
  | .trigger => "trigger"

/-- An object of the main schema. -/
structure CatalogObject where
  kind : ObjectKind
  name : String
  tableName : String
  sql : Option String
  deriving DecidableEq, Repr

/-- The main schema. SQL text ends at a NUL, so no name has one. -/
structure Catalog where
  objects : List CatalogObject
  noNul : ∀ o ∈ objects, Glob.nul ∉ o.name.toList

/-! ## Names -/

/-- The small letter of an ASCII letter. -/
def asciiLower (b : UInt8) : UInt8 := if 65 ≤ b ∧ b ≤ 90 then b + 32 else b

/-- `u8::eq_ignore_ascii_case`. -/
def eqIgnoreAsciiCase (a b : UInt8) : Bool := asciiLower a = asciiLower b

def identifierEq (left right : String) : Bool :=
  (strBytes left).length = (strBytes right).length &&
    ((strBytes left).zip (strBytes right)).all fun b => eqIgnoreAsciiCase b.1 b.2

def publicIndexPrefix : String := "lc_user_"

def dropIndexMain : String := "DROP INDEX main."

def quoteIdentifier (name : String) : String := String.ofList (quoted '"' name.toList)

/-! ## What SQLite reads and drops -/

/-- A row of `sqlite_schema`. -/
structure SchemaObject where
  objectType : String
  name : String
  tableName : String
  sql : Option String
  deriving DecidableEq, Repr

/-- A row of `pragma_index_list`. -/
structure IndexListRow where
  name : String
  unique : Bool
  origin : String
  isPartial : Bool
  deriving DecidableEq, Repr

/-- A row of `pragma_index_xinfo`. -/
structure IndexXinfoRow where
  cid : ℤ
  name : Option String
  descending : Bool
  collation : Option String
  key : Bool
  deriving DecidableEq, Repr

def CatalogObject.row (o : CatalogObject) : SchemaObject :=
  ⟨o.kind.text, o.name, o.tableName, o.sql⟩

def CatalogObject.shape? (o : CatalogObject) : Option IndexShape :=
  match o.kind with
  | .index shape => some shape
  | _ => none

def IndexColumn.row (key : Bool) (c : IndexColumn) : IndexXinfoRow :=
  match c.target with
  | .column cid name => ⟨cid, some name, c.descending, c.collation, key⟩
  | .rowid => ⟨-1, none, c.descending, c.collation, key⟩
  | .expression => ⟨-2, none, c.descending, c.collation, key⟩

def IndexShape.rows (shape : IndexShape) : List IndexXinfoRow :=
  shape.keyColumns.map (IndexColumn.row true) ++ shape.auxiliary.map (IndexColumn.row false)

namespace Sqlite

/-- SQLite's names are the same when they differ in the case of ASCII letters only. -/
def SameName (a b : String) : Prop := (strBytes a).map asciiLower = (strBytes b).map asciiLower

instance (a b : String) : Decidable (SameName a b) := inferInstanceAs (Decidable (_ = _))

/-- `name LIKE 'sqlite\_%' ESCAPE '\'`. -/
def isReserved (name : String) : Bool :=
  strBytes "sqlite_" <+: (strBytes name).map asciiLower

/-- The objects of the main schema that SQLite did not name, by type and name. -/
def schemaObjects (cat : Catalog) : List SchemaObject :=
  sortBy (fun o => toLex (textKey o.objectType, textKey o.name))
    ((cat.objects.map CatalogObject.row).filter fun o => !isReserved o.name)

/-- `pragma_index_list(table, 'main')`, by name. -/
def indexList (table : String) (cat : Catalog) : List IndexListRow :=
  sortBy (fun row => textKey row.name) (cat.objects.filterMap fun o =>
    if SameName o.tableName table then
      o.shape?.map fun shape => ⟨o.name, shape.unique, shape.origin.text, shape.hasWhere⟩
    else none)

/-- The index of a name. -/
def findIndex (name : String) (cat : Catalog) : Option CatalogObject :=
  cat.objects.find? fun o => o.shape?.isSome && decide (SameName o.name name)

/-- `pragma_index_xinfo(name, 'main')`. -/
def indexXinfo (name : String) (cat : Catalog) : List IndexXinfoRow :=
  (((findIndex name cat).bind CatalogObject.shape?).map IndexShape.rows).getD []

/-- The name in `DROP INDEX main."name"`. -/
def dropIndexName (sql : String) : Option String :=
  match (sql.toList.dropPrefix? dropIndexMain.toList).bind (readQuoted '"' Glob.nul) with
  | some (name, []) => some (String.ofList name)
  | _ => none

/-- The schema without the index rows of a name. -/
def withoutIndex (name : String) (cat : Catalog) : Catalog where
  objects := cat.objects.filter fun o => !(o.shape?.isSome && o.name = name)
  noNul := fun o ho => cat.noNul o (List.mem_of_mem_filter ho)

/-- A DROP INDEX on the main schema. Only what `CREATE INDEX` made can be dropped. -/
def dropIndex (sql : String) (cat : Catalog) : Except SqlError Catalog :=
  match dropIndexName sql with
  | none => .error (.other "syntax error")
  | some name =>
    match findIndex name cat with
    | none => .error (.other "no such index")
    | some o =>
      if o.shape?.map IndexShape.origin = some .createIndex then .ok (withoutIndex o.name cat)
      else .error (.other "index associated with UNIQUE or PRIMARY KEY constraint cannot be dropped")

end Sqlite

/-! ## Statements -/

/-- A connection in a transaction : the schema, and how many statements there were. -/
structure SchemaTx where
  catalog : Catalog
  statements : ℕ

abbrev SchemaM (α : Type) := StateExcept SchemaTx Error α

section Functions

variable (fault : ℕ → Option String)

/-- Run one statement, unless it fails from outside. -/
def schemaStatement {α : Type} (run : Catalog → Except SqlError (α × Catalog)) : SchemaM α :=
  fun t =>
    match fault t.statements with
    | some text => .error (.database text)
    | none =>
      match run t.catalog with
      | .ok (a, cat) => .ok (a, ⟨cat, t.statements + 1⟩)
      | .error e => .error (databaseError e)

def schemaSelect {α : Type} (run : Catalog → α) : SchemaM α :=
  schemaStatement fault fun cat => .ok (run cat, cat)

/-- An `IMMEDIATE` transaction, rolled back when it is not committed. -/
def schemaTransaction {α : Type} (body : SchemaM α) (cat : Catalog) : Except Error α × Catalog :=
  let run : SchemaM α := do
    schemaSelect fault fun _ => ()
    let a ← body
    schemaSelect fault fun _ => ()
    pure a
  match run ⟨cat, 0⟩ with
  | .ok (a, t) => (.ok a, t.catalog)
  | .error e => (.error e, cat)

/-! ## The functions of the program -/

def identifierError : Error := .invalidArgument "index_name"
  "not a valid SQLite identifier or not an allowed localcache index"

def IndexXinfoRow.isBinary (row : IndexXinfoRow) : Bool :=
  row.collation.any fun value => identifierEq value "BINARY"

def keyTermMismatch (row : IndexXinfoRow) (expectedName : String) : Bool :=
  row.cid < 0 || row.name ≠ some expectedName || row.descending || !row.isBinary

def validateIndexTerms (rows : List IndexXinfoRow) (expected : List String) : Except String Unit :=
  let keyRows := rows.filter fun row => row.key
  if keyRows.length ≠ expected.length then .error "index key-term count mismatch"
  else if (keyRows.zip expected).any fun term => keyTermMismatch term.1 term.2 then
    .error "index key-term mismatch"
  else
    match rows.filter fun row => !row.key with
    | [auxiliary] =>
      if auxiliary.cid ≠ -1 || auxiliary.name.isSome || auxiliary.descending ||
          !auxiliary.isBinary then
        .error "index auxiliary row mismatch"
      else .ok ()
    | _ => .error "index auxiliary row count mismatch"

def resolveSchemaObject (requested : String) : SchemaM (Option SchemaObject) := do
  let objects ← schemaSelect fault Sqlite.schemaObjects
  match objects.filter fun o => identifierEq o.name requested with
  | [] => pure none
  | [o] => pure (some o)
  | _ => StateExcept.fail identifierError

def validateIndexShape (name : String) (expected : List String) : SchemaM Unit := do
  let rows ← schemaSelect fault (Sqlite.indexList "files")
  match rows.find? fun row => identifierEq row.name name with
  | none => StateExcept.fail identifierError
  | some row =>
    if row.unique || row.isPartial || row.origin ≠ "c" then StateExcept.fail identifierError
    else
      let xinfo ← schemaSelect fault (Sqlite.indexXinfo row.name)
      match validateIndexTerms xinfo expected with
      | .ok () => pure ()
      | .error _ => StateExcept.fail identifierError

def validateOwnedPathIndex (object : SchemaObject) : SchemaM String := do
  if object.objectType ≠ "index" || object.tableName ≠ "files" || object.sql.isNone ||
      !decide (publicIndexPrefix.toList <+: object.name.toList) then
    StateExcept.fail identifierError
  else
    validateIndexShape fault object.name ["namespace", "path"]
    pure object.name

/-- The statement that drops an index. -/
def dropIndexSql (name : String) : String := dropIndexMain ++ quoteIdentifier name

/-- `drop_path_index` in its transaction. -/
def dropPathIndexTx (suffix : String) : SchemaM Bool := do
  let full := publicIndexPrefix ++ suffix
  match ← resolveSchemaObject fault full with
  | none => pure false
  | some object =>
    let _ ← validateOwnedPathIndex fault object
    schemaStatement fault fun cat =>
      (Sqlite.dropIndex (dropIndexSql object.name) cat).map fun cat => ((), cat)
    match ← resolveSchemaObject fault full with
    | some _ => StateExcept.fail identifierError
    | none => pure true

def dropPathIndex (suffix : String) (cat : Catalog) : Except Error Bool × Catalog :=
  schemaTransaction fault (dropPathIndexTx fault suffix) cat

end Functions

/-! ## Equal names -/

theorem all_zip_iff_map_eq {α β : Type*} [DecidableEq β] (f : α → β) : ∀ l r : List α,
    (l.length = r.length ∧ ∀ p ∈ l.zip r, f p.1 = f p.2) ↔ l.map f = r.map f
  | [], [] => by simp
  | [], _ :: _ => by simp
  | _ :: _, [] => by simp
  | a :: l, b :: r => by
    rw [List.map_cons, List.map_cons, List.cons_eq_cons, ← all_zip_iff_map_eq f l r]
    simp only [List.length_cons, Nat.add_right_cancel_iff, List.zip_cons_cons, List.mem_cons,
      forall_eq_or_imp]
    exact ⟨fun h => ⟨h.2.1, h.1, h.2.2⟩, fun h => ⟨h.2.1, h.1, h.2.2⟩⟩

/-- The program's equality of names is SQLite's. -/
theorem identifierEq_iff {left right : String} :
    identifierEq left right = true ↔ Sqlite.SameName left right := by
  rw [Sqlite.SameName, ← all_zip_iff_map_eq]
  simp [identifierEq, eqIgnoreAsciiCase]

example : identifierEq "lc_user_Mixed" "LC_USER_mIXED" = true ∧
    identifierEq "lc_user_é" "lc_user_É" = false := by decide

namespace Sqlite

theorem SameName.refl (a : String) : SameName a a := Eq.refl _

theorem SameName.symm {a b : String} (h : SameName a b) : SameName b a := Eq.symm h

theorem SameName.trans {a b c : String} (hab : SameName a b) (hbc : SameName b c) : SameName a c :=
  Eq.trans hab hbc

/-- No name of localcache's indexes is reserved, in whatever case. -/
theorem isReserved_eq_false {name suffix : String}
    (h : SameName name (publicIndexPrefix ++ suffix)) : isReserved name = false := by
  rw [isReserved, decide_eq_false_iff_not, h, strBytes_append, List.map_append]
  intro hreserved
  have hfirst : strBytes "sqlite_" = 115 :: strBytes "qlite_" := by decide
  have hpublic : (strBytes publicIndexPrefix).map asciiLower = 108 :: strBytes "c_user_" := by
    decide
  rw [hfirst, hpublic, List.cons_append, List.cons_prefix_cons] at hreserved
  exact absurd hreserved.1 (by decide)

end Sqlite

/-! ## Statements that succeed -/

section Statements

variable {fault : ℕ → Option String} {α : Type}

theorem schemaStatement_ok {run : Catalog → Except SqlError (α × Catalog)} {t t' : SchemaTx} {a : α}
    (h : schemaStatement fault run t = .ok (a, t')) : run t.catalog = .ok (a, t'.catalog) := by
  unfold schemaStatement at h
  split at h
  · cases h
  · split at h
    · rename_i hrun
      obtain ⟨rfl, rfl⟩ := Prod.mk.inj (Except.ok.inj h)
      exact hrun
    · cases h

theorem schemaSelect_ok {run : Catalog → α} {t t' : SchemaTx} {a : α}
    (h : schemaSelect fault run t = .ok (a, t')) : run t.catalog = a ∧ t'.catalog = t.catalog := by
  obtain ⟨ha, hcat⟩ := Prod.mk.inj (Except.ok.inj (schemaStatement_ok h))
  exact ⟨ha, hcat.symm⟩

/-- A transaction that succeeds did what its body did, and any other leaves the schema. -/
theorem schemaTransaction_cases (body : SchemaM α) (cat : Catalog) :
    (∃ a t t', body t = .ok (a, t') ∧ t.catalog = cat ∧
      schemaTransaction fault body cat = (.ok a, t'.catalog)) ∨
    ∃ e, schemaTransaction fault body cat = (.error e, cat) := by
  unfold schemaTransaction
  dsimp only
  split
  · rename_i a t hrun
    obtain ⟨_, t₁, hbegin, hrun⟩ := StateExcept.bind_eq_ok hrun
    obtain ⟨b, t₂, hbody, hrun⟩ := StateExcept.bind_eq_ok hrun
    obtain ⟨_, t₃, hcommit, hrun⟩ := StateExcept.bind_eq_ok hrun
    obtain ⟨rfl, rfl⟩ := StateExcept.pure_eq_ok hrun
    refine .inl ⟨b, t₁, t₂, hbody, (schemaSelect_ok hbegin).2, ?_⟩
    rw [(schemaSelect_ok hcommit).2]
  · exact .inr ⟨_, rfl⟩

end Statements

/-! ## Resolving a name -/

/-- The objects of the schema with a name, as SQLite compares names. -/
def Catalog.named (cat : Catalog) (name : String) : List CatalogObject :=
  cat.objects.filter fun o => decide (Sqlite.SameName o.name name)

theorem Catalog.mem_named {cat : Catalog} {name : String} {o : CatalogObject} :
    o ∈ cat.named name ↔ o ∈ cat.objects ∧ Sqlite.SameName o.name name := by
  rw [Catalog.named, List.mem_filter, decide_eq_true_eq]

/-- The rows that a name resolves to are those of its objects. -/
theorem perm_matches (cat : Catalog) (suffix : String) :
    ((Sqlite.schemaObjects cat).filter fun o =>
      identifierEq o.name (publicIndexPrefix ++ suffix)).Perm
        ((cat.named (publicIndexPrefix ++ suffix)).map CatalogObject.row) := by
  have hfilter : ((cat.objects.map CatalogObject.row).filter fun o =>
      !Sqlite.isReserved o.name).filter
        (fun o => identifierEq o.name (publicIndexPrefix ++ suffix)) =
        (cat.named (publicIndexPrefix ++ suffix)).map CatalogObject.row := by
    rw [List.filter_filter, List.filter_map, Catalog.named]
    refine congrArg _ (List.filter_congr fun o _ => ?_)
    by_cases hname : Sqlite.SameName o.name (publicIndexPrefix ++ suffix)
    · simp [CatalogObject.row, identifierEq_iff.mpr hname, Sqlite.isReserved_eq_false hname, hname]
    · have hne : identifierEq o.name (publicIndexPrefix ++ suffix) = false :=
        Bool.eq_false_iff.mpr fun h => hname (identifierEq_iff.mp h)
      simp [CatalogObject.row, hne, hname]
  rw [← hfilter]
  exact (sortBy_perm _ _).filter _

theorem resolveSchemaObject_ok {fault : ℕ → Option String} {suffix : String} {t t' : SchemaTx}
    {found : Option SchemaObject}
    (h : resolveSchemaObject fault (publicIndexPrefix ++ suffix) t = .ok (found, t')) :
    t'.catalog = t.catalog ∧ ∀ row ∈ found, ∃ o, t.catalog.named (publicIndexPrefix ++ suffix) = [o] ∧
      o.row = row := by
  obtain ⟨objects, t₁, hobjects, h⟩ := StateExcept.bind_eq_ok h
  obtain ⟨rfl, hcat⟩ := schemaSelect_ok hobjects
  have hperm := perm_matches t.catalog suffix
  generalize List.filter (fun o : SchemaObject => identifierEq o.name (publicIndexPrefix ++ suffix))
    (Sqlite.schemaObjects t.catalog) = rows at h hperm
  match rows, hperm, h with
  | [], _, h =>
    obtain ⟨rfl, rfl⟩ := StateExcept.pure_eq_ok h
    exact ⟨hcat, by simp⟩
  | [row], hperm, h =>
    obtain ⟨rfl, rfl⟩ := StateExcept.pure_eq_ok h
    refine ⟨hcat, fun row' hrow => ?_⟩
    obtain rfl := Option.some.inj hrow
    obtain ⟨o, ho, hrow⟩ := List.map_eq_singleton_iff.mp (List.singleton_perm.mp hperm).symm
    exact ⟨o, ho, hrow⟩
  | _ :: _ :: _, _, h => exact absurd h StateExcept.not_fail_eq_ok

/-! ## The indexes that localcache owns -/

/-- A key column : the column of the table with the name, ascending, in byte order. -/
structure IndexColumn.Plain (name : String) (c : IndexColumn) : Prop where
  column : ∃ cid, c.target = .column cid name
  ascending : c.descending = false
  binary : ∃ collation, c.collation = some collation ∧ Sqlite.SameName collation "BINARY"

/-- What a dropped object is : an index that localcache creates, with the name called for. -/
structure OwnedPathIndex (suffix : String) (o : CatalogObject) : Prop where
  startsWith : publicIndexPrefix.toList <+: o.name.toList
  sameName : Sqlite.SameName o.name (publicIndexPrefix ++ suffix)
  onFiles : o.tableName = "files"
  hasSql : o.sql.isSome
  shape : ∃ shape, o.kind = .index shape ∧ shape.origin = .createIndex ∧ shape.unique = false ∧
    shape.hasWhere = false ∧ List.Forall₂ IndexColumn.Plain ["namespace", "path"] shape.keyColumns

theorem IndexColumn.row_key (key : Bool) (c : IndexColumn) : (c.row key).key = key := by
  obtain ⟨target, descending, collation⟩ := c
  cases target <;> rfl

theorem plain_of_keyTermMismatch {c : IndexColumn} {name : String}
    (h : keyTermMismatch (c.row true) name = false) : c.Plain name := by
  obtain ⟨target, descending, collation⟩ := c
  simp only [keyTermMismatch, IndexXinfoRow.isBinary, Bool.or_eq_false_iff, decide_eq_false_iff_not,
    Bool.not_eq_false_eq_eq_true, ne_eq, not_not] at h
  obtain ⟨⟨⟨hcid, hname⟩, hdescending⟩, hbinary⟩ := h
  cases target with
  | column cid columnName =>
    obtain rfl := Option.some.inj hname
    cases collation with
    | none => simp [IndexColumn.row] at hbinary
    | some value =>
      have hsame : identifierEq value "BINARY" = true := by simpa [IndexColumn.row] using hbinary
      exact ⟨⟨cid, rfl⟩, hdescending, value, rfl, identifierEq_iff.mp hsame⟩
  | rowid => exact absurd hname (by simp [IndexColumn.row])
  | expression => exact absurd hname (by simp [IndexColumn.row])

theorem IndexShape.filter_rows (shape : IndexShape) :
    shape.rows.filter (fun row => row.key) = shape.keyColumns.map (IndexColumn.row true) := by
  rw [IndexShape.rows, List.filter_append, List.filter_map, List.filter_map]
  simp [Function.comp_def, IndexColumn.row_key]

theorem IndexShape.filter_auxiliary (shape : IndexShape) :
    shape.rows.filter (fun row => !row.key) = shape.auxiliary.map (IndexColumn.row false) := by
  rw [IndexShape.rows, List.filter_append, List.filter_map, List.filter_map]
  simp [Function.comp_def, IndexColumn.row_key]

theorem mem_zip_swap {α β : Type*} {l : List α} {r : List β} {a : α} {b : β} (h : (a, b) ∈ l.zip r) :
    (b, a) ∈ r.zip l := by
  rw [← List.zip_swap]
  exact List.mem_map.mpr ⟨(a, b), h, rfl⟩

/-- The key terms that pass are plain columns of the names expected. -/
theorem validateIndexTerms_ok {shape : IndexShape} {expected : List String}
    (h : validateIndexTerms shape.rows expected = .ok ()) :
    List.Forall₂ IndexColumn.Plain expected shape.keyColumns := by
  unfold validateIndexTerms at h
  dsimp only at h
  rw [IndexShape.filter_rows] at h
  split_ifs at h with hlength hterms
  rw [not_not, List.length_map] at hlength
  rw [List.forall₂_iff_zip]
  refine ⟨hlength.symm, fun {name c} hmem => plain_of_keyTermMismatch ?_⟩
  refine Bool.eq_false_iff.mpr fun hmismatch => hterms (List.any_eq_true.mpr ?_)
  rw [List.zip_map_left]
  exact ⟨(c.row true, name), List.mem_map.mpr ⟨(c, name), mem_zip_swap hmem, rfl⟩, hmismatch⟩

/-- The one object of a name stands alone in the schema. -/
theorem Catalog.split_of_named {cat : Catalog} {full : String} {o : CatalogObject}
    (hnamed : cat.named full = [o]) :
    ∃ before after, cat.objects = before ++ o :: after ∧
      ∀ p ∈ before ++ after, ¬ Sqlite.SameName p.name full := by
  obtain ⟨before, after, hobjects, hbefore, -, hafter⟩ := List.filter_eq_cons_iff.mp hnamed
  refine ⟨before, after, hobjects, fun p hp hsame => ?_⟩
  rcases List.mem_append.mp hp with hp | hp
  · exact hbefore p hp (decide_eq_true hsame)
  · exact List.filter_eq_nil_iff.mp hafter p hp (decide_eq_true hsame)

theorem Catalog.mem_of_named {cat : Catalog} {full : String} {o : CatalogObject}
    (hnamed : cat.named full = [o]) : o ∈ cat.objects ∧ Sqlite.SameName o.name full :=
  Catalog.mem_named.mp (hnamed ▸ List.mem_singleton_self o)

theorem Catalog.eq_of_named {cat : Catalog} {full : String} {o p : CatalogObject}
    (hnamed : cat.named full = [o]) (hp : p ∈ cat.objects) (hsame : Sqlite.SameName p.name full) :
    p = o :=
  List.mem_singleton.mp (hnamed ▸ Catalog.mem_named.mpr ⟨hp, hsame⟩)

theorem Sqlite.findIndex_of_named {cat : Catalog} {full name : String} {o : CatalogObject}
    (hnamed : cat.named full = [o]) (hname : SameName name full) (hindex : o.shape?.isSome) :
    Sqlite.findIndex name cat = some o := by
  obtain ⟨hmem, hsame⟩ := Catalog.mem_of_named hnamed
  cases hfind : Sqlite.findIndex name cat with
  | none =>
    refine absurd (List.find?_eq_none.mp hfind o hmem) ?_
    simp [hindex, hsame.trans hname.symm]
  | some p =>
    have hp := List.find?_some hfind
    rw [Bool.and_eq_true, decide_eq_true_eq] at hp
    rw [Catalog.eq_of_named hnamed (List.mem_of_find?_eq_some hfind) (hp.2.trans hname)]

theorem shape?_eq_some {o : CatalogObject} {shape : IndexShape} (h : o.kind = .index shape) :
    o.shape? = some shape := by
  rw [CatalogObject.shape?, h]

theorem Sqlite.indexXinfo_of_named {cat : Catalog} {full : String} {o : CatalogObject}
    {shape : IndexShape} (hnamed : cat.named full = [o]) (hkind : o.kind = .index shape) :
    Sqlite.indexXinfo o.name cat = shape.rows := by
  have hshape := shape?_eq_some hkind
  rw [Sqlite.indexXinfo, Sqlite.findIndex_of_named hnamed (Catalog.mem_of_named hnamed).2
    (by simp [hshape])]
  simp [hshape]

/-- The rows of the table's indexes are of its indexes. -/
theorem Sqlite.exists_of_mem_indexList {table : String} {cat : Catalog} {row : IndexListRow}
    (h : row ∈ Sqlite.indexList table cat) :
    ∃ p ∈ cat.objects, ∃ shape, p.kind = .index shape ∧
      row = ⟨p.name, shape.unique, shape.origin.text, shape.hasWhere⟩ := by
  rw [Sqlite.indexList, mem_sortBy, List.mem_filterMap] at h
  obtain ⟨p, hp, hrow⟩ := h
  split_ifs at hrow
  obtain ⟨shape, hshape, rfl⟩ := Option.map_eq_some_iff.mp hrow
  refine ⟨p, hp, shape, ?_, rfl⟩
  unfold CatalogObject.shape? at hshape
  split at hshape
  · obtain rfl := Option.some.inj hshape
    assumption
  · cases hshape

/-- What a shape that passes is. -/
theorem validateIndexShape_ok {fault : ℕ → Option String} {full : String} {expected : List String}
    {t t' : SchemaTx} {o : CatalogObject} (hnamed : t.catalog.named full = [o])
    (h : validateIndexShape fault o.name expected t = .ok ((), t')) :
    t'.catalog = t.catalog ∧ ∃ shape, o.kind = .index shape ∧ shape.origin = .createIndex ∧
      shape.unique = false ∧ shape.hasWhere = false ∧
      List.Forall₂ IndexColumn.Plain expected shape.keyColumns := by
  have hsame := (Catalog.mem_of_named hnamed).2
  obtain ⟨rows, t₁, hrows, hrest⟩ := StateExcept.bind_eq_ok h
  obtain ⟨rfl, hcat⟩ := schemaSelect_ok hrows
  cases hfind : (Sqlite.indexList "files" t.catalog).find? fun row =>
      identifierEq row.name o.name with
  | none =>
    rw [hfind] at hrest
    exact absurd hrest StateExcept.not_fail_eq_ok
  | some row =>
    rw [hfind] at hrest
    obtain ⟨p, hp, shape, hkind, rfl⟩ :=
      Sqlite.exists_of_mem_indexList (List.mem_of_find?_eq_some hfind)
    have hpo := List.find?_some hfind
    obtain rfl := Catalog.eq_of_named hnamed hp ((identifierEq_iff.mp hpo).trans hsame)
    dsimp only at hrest
    split_ifs at hrest with hrefused
    · exact absurd hrest StateExcept.not_fail_eq_ok
    simp only [Bool.or_eq_true, decide_eq_true_eq, not_or, ne_eq, not_not,
      Bool.not_eq_true] at hrefused
    obtain ⟨⟨hunique, hwhere⟩, horigin⟩ := hrefused
    obtain ⟨xinfo, t₂, hxinfo, hrest⟩ := StateExcept.bind_eq_ok hrest
    obtain ⟨rfl, hcat'⟩ := schemaSelect_ok hxinfo
    have hrows : Sqlite.indexXinfo p.name t₁.catalog = shape.rows := by
      rw [hcat]
      exact Sqlite.indexXinfo_of_named hnamed hkind
    rw [hrows] at hrest
    have hcreated : shape.origin = .createIndex := by
      cases hcase : shape.origin with
      | createIndex => rfl
      | uniqueConstraint => exact absurd (hcase ▸ horigin) (by decide)
      | primaryKey => exact absurd (hcase ▸ horigin) (by decide)
    cases hterms : validateIndexTerms shape.rows expected with
    | ok _ =>
      rw [hterms] at hrest
      obtain ⟨-, rfl⟩ := StateExcept.pure_eq_ok hrest
      exact ⟨hcat'.trans hcat, shape, hkind, hcreated, hunique, hwhere,
        validateIndexTerms_ok hterms⟩
    | error _ =>
      rw [hterms] at hrest
      exact absurd hrest StateExcept.not_fail_eq_ok

/-- The ownership checks of the one object of a name. -/
theorem validateOwnedPathIndex_ok {fault : ℕ → Option String} {suffix : String} {t t' : SchemaTx}
    {o : CatalogObject} {name : String}
    (hnamed : t.catalog.named (publicIndexPrefix ++ suffix) = [o])
    (h : validateOwnedPathIndex fault o.row t = .ok (name, t')) :
    t'.catalog = t.catalog ∧ OwnedPathIndex suffix o := by
  have hsame := (Catalog.mem_of_named hnamed).2
  unfold validateOwnedPathIndex at h
  split_ifs at h with hrefused
  · exact absurd h StateExcept.not_fail_eq_ok
  obtain ⟨_, t₁, hshape, h⟩ := StateExcept.bind_eq_ok h
  obtain ⟨-, rfl⟩ := StateExcept.pure_eq_ok h
  obtain ⟨hcat, hshape⟩ := validateIndexShape_ok hnamed hshape
  simp only [Bool.or_eq_true, decide_eq_true_eq, not_or, ne_eq, not_not, Bool.not_eq_true,
    Bool.not_eq_false', Option.isNone_eq_false_iff] at hrefused
  obtain ⟨⟨⟨-, hfiles⟩, hsql⟩, hstart⟩ := hrefused
  exact ⟨hcat, ⟨hstart, hsame, hfiles, hsql, hshape⟩⟩

/-! ## The statement that drops -/

/-- The name in the statement is read back. -/
theorem Sqlite.dropIndexName_dropIndexSql {name : String} (h : Glob.nul ∉ name.toList) :
    Sqlite.dropIndexName (dropIndexSql name) = some name := by
  have hread : readQuoted '"' Glob.nul (quoted '"' name.toList ++ []) = some (name.toList, []) :=
    readQuoted_quoted (by decide) h (by simp)
  have hsql : (dropIndexSql name).toList = dropIndexMain.toList ++ quoted '"' name.toList := by
    rw [dropIndexSql, String.toList_append]
    exact congrArg _ String.toList_ofList
  have hdrop : (dropIndexSql name).toList.dropPrefix? dropIndexMain.toList =
      some (quoted '"' name.toList) := by
    rw [hsql]
    exact List.dropPrefix?_append_of_beq _ BEq.rfl
  rw [List.append_nil] at hread
  rw [Sqlite.dropIndexName, hdrop, Option.bind_some, hread]
  exact congrArg some String.ofList_toList

/-- A DROP of the one index of a name takes it out of the schema. -/
theorem Sqlite.dropIndex_ok {full : String} {cat cat' : Catalog} {o : CatalogObject}
    (hnamed : cat.named full = [o]) (hindex : o.shape?.isSome)
    (h : Sqlite.dropIndex (dropIndexSql o.name) cat = .ok cat') :
    ∃ before after, cat.objects = before ++ o :: after ∧ cat'.objects = before ++ after := by
  obtain ⟨hmem, hsame⟩ := Catalog.mem_of_named hnamed
  unfold Sqlite.dropIndex at h
  rw [Sqlite.dropIndexName_dropIndexSql (cat.noNul o hmem)] at h
  dsimp only at h
  rw [Sqlite.findIndex_of_named hnamed hsame hindex] at h
  dsimp only at h
  split_ifs at h
  obtain rfl := Except.ok.inj h
  obtain ⟨before, after, hobjects, hothers⟩ := Catalog.split_of_named hnamed
  have hkept : ∀ p ∈ before ++ after, (!(p.shape?.isSome && p.name = o.name)) = true := by
    intro p hp
    have hne : p.name ≠ o.name := fun hname => hothers p hp (hname ▸ hsame)
    simp [hne]
  refine ⟨before, after, hobjects, ?_⟩
  show cat.objects.filter (fun p => !(p.shape?.isSome && p.name = o.name)) = before ++ after
  have hbefore := List.filter_eq_self.mpr fun p hp => hkept p (List.mem_append_left after hp)
  have hafter := List.filter_eq_self.mpr fun p hp => hkept p (List.mem_append_right before hp)
  rw [hobjects, List.filter_append, List.filter_cons_of_neg (by simp [hindex]),
    hbefore, hafter]

/-! ## A call -/

theorem dropPathIndexTx_ok {fault : ℕ → Option String} {suffix : String} {t t' : SchemaTx}
    {dropped : Bool} (h : dropPathIndexTx fault suffix t = .ok (dropped, t')) :
    (dropped = true ∧ ∃ o before after, t.catalog.objects = before ++ o :: after ∧
      t'.catalog.objects = before ++ after ∧ OwnedPathIndex suffix o) ∨
    dropped = false ∧ t'.catalog = t.catalog := by
  obtain ⟨found, t₁, hfound, h⟩ := StateExcept.bind_eq_ok h
  obtain ⟨hcat₁, hone⟩ := resolveSchemaObject_ok hfound
  cases found with
  | none =>
    obtain ⟨rfl, rfl⟩ := StateExcept.pure_eq_ok h
    exact .inr ⟨rfl, hcat₁⟩
  | some row =>
    obtain ⟨o, hnamed, rfl⟩ := hone row rfl
    obtain ⟨name, t₂, hvalid, h⟩ := StateExcept.bind_eq_ok h
    obtain ⟨_, t₃, hdrop, h⟩ := StateExcept.bind_eq_ok h
    obtain ⟨again, t₄, hagain, h⟩ := StateExcept.bind_eq_ok h
    obtain ⟨hcat₂, howned⟩ := validateOwnedPathIndex_ok (hcat₁ ▸ hnamed) hvalid
    obtain ⟨hcat₄, -⟩ := resolveSchemaObject_ok hagain
    cases again with
    | some _ => exact absurd h StateExcept.not_fail_eq_ok
    | none =>
      obtain ⟨rfl, rfl⟩ := StateExcept.pure_eq_ok h
      have hindex : o.shape?.isSome := by
        obtain ⟨shape, hkind, -⟩ := howned.shape
        rw [shape?_eq_some hkind, Option.isSome_some]
      have hcat : t₂.catalog = t.catalog := hcat₂.trans hcat₁
      have hdropped := schemaStatement_ok hdrop
      cases hresult : Sqlite.dropIndex (dropIndexSql o.name) t₂.catalog with
      | error e =>
        rw [CatalogObject.row, hresult] at hdropped
        cases hdropped
      | ok cat =>
        rw [CatalogObject.row, hresult] at hdropped
        have hcat₃ : cat = t₃.catalog := (Prod.mk.inj (Except.ok.inj hdropped)).2
        rw [hcat] at hresult
        obtain ⟨before, after, hobjects, hafter⟩ := Sqlite.dropIndex_ok hnamed hindex hresult
        exact .inl ⟨rfl, o, before, after, hobjects, by rw [hcat₄, ← hcat₃, hafter], howned⟩

/-- A call drops one object, an index of localcache's own with the name called for, or leaves the
schema. The name in the statement is the object's, whichever it is. -/
theorem dropPathIndex_spec (fault : ℕ → Option String) (suffix : String) (cat : Catalog) :
    (((dropPathIndex fault suffix cat).1 = .ok true ∧
        ∃ o before after, cat.objects = before ++ o :: after ∧
          (dropPathIndex fault suffix cat).2.objects = before ++ after ∧ OwnedPathIndex suffix o) ∨
      ((dropPathIndex fault suffix cat).1 = .ok false ∨
          ∃ e, (dropPathIndex fault suffix cat).1 = .error e) ∧
        (dropPathIndex fault suffix cat).2 = cat) ∧
    ∀ o ∈ cat.objects, Sqlite.dropIndexName (dropIndexSql o.name) = some o.name := by
  refine ⟨?_, fun o ho => Sqlite.dropIndexName_dropIndexSql (cat.noNul o ho)⟩
  unfold dropPathIndex
  rcases schemaTransaction_cases (dropPathIndexTx fault suffix) cat with
    ⟨dropped, t, t', hbody, rfl, hrun⟩ | ⟨e, hrun⟩
  · rw [hrun]
    rcases dropPathIndexTx_ok hbody with ⟨rfl, h⟩ | ⟨rfl, h⟩
    · exact .inl ⟨rfl, h⟩
    · exact .inr ⟨.inl rfl, h⟩
  · rw [hrun]
    exact .inr ⟨.inr ⟨e, rfl⟩, rfl⟩

/-! ## What a call drops without faults -/

/-- SQLite adds the rowid to the key of an index, in byte order. -/
def IndexShape.EndsInRowid (shape : IndexShape) : Prop :=
  ∃ collation, shape.auxiliary = [⟨.rowid, false, some collation⟩] ∧
    Sqlite.SameName collation "BINARY"

theorem IndexColumn.Plain.keyTermMismatch_eq_false {c : IndexColumn} {name : String}
    (h : c.Plain name) : keyTermMismatch (c.row true) name = false := by
  obtain ⟨target, descending, collation⟩ := c
  obtain ⟨⟨cid, htarget⟩, hascending, value, hcollation, hbinary⟩ := h
  dsimp only at htarget hascending hcollation
  subst htarget hascending hcollation
  have hcid : ¬ (cid : ℤ) < 0 := not_lt.mpr (Int.natCast_nonneg cid)
  simp [keyTermMismatch, IndexColumn.row, IndexXinfoRow.isBinary, identifierEq_iff.mpr hbinary, hcid]

theorem validateIndexTerms_of_plain {shape : IndexShape} {expected : List String}
    (hplain : List.Forall₂ IndexColumn.Plain expected shape.keyColumns)
    (hrowid : shape.EndsInRowid) : validateIndexTerms shape.rows expected = .ok () := by
  obtain ⟨collation, haux, hbinary⟩ := hrowid
  have hlength : ¬ (shape.keyColumns.map (IndexColumn.row true)).length ≠ expected.length := by
    rw [not_not, List.length_map, hplain.length_eq]
  have hterms : ¬ (((shape.keyColumns.map (IndexColumn.row true)).zip expected).any fun term =>
      keyTermMismatch term.1 term.2) = true := by
    rw [List.zip_map_left, List.any_map, List.any_eq_true]
    rintro ⟨⟨c, name⟩, hmem, hmismatch⟩
    have hc := ((List.forall₂_iff_zip.mp hplain).2 (mem_zip_swap hmem)).keyTermMismatch_eq_false
    exact absurd hmismatch (by simpa using hc)
  unfold validateIndexTerms
  dsimp only
  rw [IndexShape.filter_rows, if_neg hlength, if_neg hterms, IndexShape.filter_auxiliary, haux]
  simp [IndexColumn.row, IndexXinfoRow.isBinary, identifierEq_iff.mpr hbinary]

section NoFault

variable {suffix : String} {o : CatalogObject}

/-- The statements all succeed. -/
def noFault : ℕ → Option String := fun _ => none

theorem schemaSelect_noFault {α : Type} (run : Catalog → α) (t : SchemaTx) :
    schemaSelect noFault run t = .ok (run t.catalog, ⟨t.catalog, t.statements + 1⟩) := rfl

theorem resolveSchemaObject_noFault {t : SchemaTx}
    (hnamed : t.catalog.named (publicIndexPrefix ++ suffix) = [o]) :
    resolveSchemaObject noFault (publicIndexPrefix ++ suffix) t =
      .ok (some o.row, ⟨t.catalog, t.statements + 1⟩) := by
  have hperm := perm_matches t.catalog suffix
  rw [hnamed] at hperm
  rw [resolveSchemaObject, StateExcept.bind_of_ok (schemaSelect_noFault _ t),
    List.perm_singleton.mp hperm]
  rfl

theorem resolveSchemaObject_noFault_none {t : SchemaTx}
    (hnamed : t.catalog.named (publicIndexPrefix ++ suffix) = []) :
    resolveSchemaObject noFault (publicIndexPrefix ++ suffix) t =
      .ok (none, ⟨t.catalog, t.statements + 1⟩) := by
  have hperm := perm_matches t.catalog suffix
  rw [hnamed] at hperm
  rw [resolveSchemaObject, StateExcept.bind_of_ok (schemaSelect_noFault _ t), hperm.eq_nil]
  rfl

/-- The index is in its table's list, and there its own row answers to its name. -/
theorem find?_indexList {cat : Catalog} {full table : String} {shape : IndexShape}
    (hnamed : cat.named full = [o]) (hkind : o.kind = .index shape) (htable : o.tableName = table) :
    (Sqlite.indexList table cat).find? (fun row => identifierEq row.name o.name) =
      some ⟨o.name, shape.unique, shape.origin.text, shape.hasWhere⟩ := by
  obtain ⟨hmem, hsame⟩ := Catalog.mem_of_named hnamed
  have hrow : ⟨o.name, shape.unique, shape.origin.text, shape.hasWhere⟩ ∈
      Sqlite.indexList table cat := by
    rw [Sqlite.indexList, mem_sortBy, List.mem_filterMap]
    refine ⟨o, hmem, ?_⟩
    rw [if_pos (by rw [htable]; exact .refl table), shape?_eq_some hkind]
    rfl
  cases hfind : (Sqlite.indexList table cat).find? fun row => identifierEq row.name o.name with
  | none =>
    have hself : identifierEq o.name o.name = true := identifierEq_iff.mpr (.refl o.name)
    have hnone := List.find?_eq_none.mp hfind _ hrow
    exact absurd hself hnone
  | some row =>
    obtain ⟨p, hp, shape', hkind', rfl⟩ :=
      Sqlite.exists_of_mem_indexList (List.mem_of_find?_eq_some hfind)
    have hpo := List.find?_some hfind
    obtain rfl := Catalog.eq_of_named hnamed hp ((identifierEq_iff.mp hpo).trans hsame)
    obtain rfl := ObjectKind.index.inj (hkind.symm.trans hkind')
    rfl

theorem validateIndexShape_noFault {t : SchemaTx} {full : String} {expected : List String}
    {shape : IndexShape} (hnamed : t.catalog.named full = [o]) (hfiles : o.tableName = "files")
    (hkind : o.kind = .index shape) (hcreated : shape.origin = .createIndex)
    (hunique : shape.unique = false) (hwhere : shape.hasWhere = false)
    (hterms : validateIndexTerms shape.rows expected = .ok ()) :
    validateIndexShape noFault o.name expected t = .ok ((), ⟨t.catalog, t.statements + 2⟩) := by
  rw [validateIndexShape, StateExcept.bind_of_ok (schemaSelect_noFault _ t),
    find?_indexList hnamed hkind hfiles]
  dsimp only
  rw [if_neg (by simp [hunique, hwhere, hcreated, IndexOrigin.text]),
    StateExcept.bind_of_ok (schemaSelect_noFault _ _), Sqlite.indexXinfo_of_named hnamed hkind,
    hterms]
  rfl

theorem validateOwnedPathIndex_noFault {t : SchemaTx}
    (hnamed : t.catalog.named (publicIndexPrefix ++ suffix) = [o]) (howned : OwnedPathIndex suffix o)
    (hrowid : ∀ shape ∈ o.shape?, shape.EndsInRowid) :
    validateOwnedPathIndex noFault o.row t = .ok (o.name, ⟨t.catalog, t.statements + 2⟩) := by
  obtain ⟨hstart, -, hfiles, hsql, shape, hkind, hcreated, hunique, hwhere, hplain⟩ := howned
  have hterms := validateIndexTerms_of_plain hplain (hrowid shape (shape?_eq_some hkind))
  rw [validateOwnedPathIndex, if_neg]
  · exact StateExcept.bind_of_ok
      (validateIndexShape_noFault hnamed hfiles hkind hcreated hunique hwhere hterms)
  · simp [CatalogObject.row, hkind, ObjectKind.text, hfiles, hstart,
      Option.isSome_iff_ne_none.mp hsql]

/-- Without a fault, a call drops the index of localcache's own that no other object shares its
name with. -/
theorem dropPathIndex_noFault {cat : Catalog}
    (hnamed : cat.named (publicIndexPrefix ++ suffix) = [o]) (howned : OwnedPathIndex suffix o)
    (hrowid : ∀ shape ∈ o.shape?, shape.EndsInRowid) :
    (dropPathIndex noFault suffix cat).1 = .ok true := by
  obtain ⟨shape, hkind, hcreated, -⟩ := howned.shape
  have hshape := shape?_eq_some hkind
  obtain ⟨hmem, hsame⟩ := Catalog.mem_of_named hnamed
  have hdrop : Sqlite.dropIndex (dropIndexSql o.name) cat =
      .ok (Sqlite.withoutIndex o.name cat) := by
    unfold Sqlite.dropIndex
    rw [Sqlite.dropIndexName_dropIndexSql (cat.noNul o hmem)]
    dsimp only
    rw [Sqlite.findIndex_of_named hnamed hsame (by simp [hshape])]
    dsimp only
    rw [hshape, Option.map_some, if_pos (congrArg some hcreated)]
  have hgone : (Sqlite.withoutIndex o.name cat).named (publicIndexPrefix ++ suffix) = [] := by
    refine List.eq_nil_iff_forall_not_mem.mpr fun p hp => ?_
    obtain ⟨hp, hpsame⟩ := Catalog.mem_named.mp hp
    obtain ⟨hpmem, hkept⟩ := List.mem_filter.mp hp
    obtain rfl := Catalog.eq_of_named hnamed hpmem hpsame
    simp [hshape] at hkept
  have hstatement : ∀ n, schemaStatement noFault (fun cat => (Sqlite.dropIndex
      (dropIndexSql o.row.name) cat).map fun cat => ((), cat)) ⟨cat, n⟩ =
        .ok ((), ⟨Sqlite.withoutIndex o.name cat, n + 1⟩) := by
    intro n
    have hmap : ((Sqlite.dropIndex (dropIndexSql o.row.name) cat).map fun cat => ((), cat)) =
        .ok ((), Sqlite.withoutIndex o.name cat) := congrArg (Except.map _) hdrop
    simp only [schemaStatement, noFault, hmap]
  have hbody : dropPathIndexTx noFault suffix ⟨cat, 1⟩ =
      .ok (true, ⟨Sqlite.withoutIndex o.name cat, 6⟩) := by
    unfold dropPathIndexTx
    rw [StateExcept.bind_of_ok (resolveSchemaObject_noFault hnamed)]
    dsimp only
    rw [StateExcept.bind_of_ok (validateOwnedPathIndex_noFault hnamed howned hrowid),
      StateExcept.bind_of_ok (hstatement _),
      StateExcept.bind_of_ok (resolveSchemaObject_noFault_none hgone)]
    rfl
  have hrun : (do
      schemaSelect noFault fun _ => ()
      let dropped ← dropPathIndexTx noFault suffix
      schemaSelect noFault fun _ => ()
      pure dropped : SchemaM Bool) ⟨cat, 0⟩ = .ok (true, ⟨Sqlite.withoutIndex o.name cat, 7⟩) := by
    rw [StateExcept.bind_of_ok (schemaSelect_noFault _ _), StateExcept.bind_of_ok hbody,
      StateExcept.bind_of_ok (schemaSelect_noFault _ _)]
    rfl
  rw [dropPathIndex, schemaTransaction, hrun]

end NoFault

end LocalCache
