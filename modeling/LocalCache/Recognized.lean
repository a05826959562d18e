import Mathlib.Data.Finset.Card
import LocalCache.PathIndexes
import LocalCache.Rotation
import LocalCache.Versions

/-!
# The objects of a database that opens

Opening a database checks the objects of its schema : the classifier's policy takes the two tables,
the indexes a version requires and the path indexes that callers made, and nothing else, and then
it looks into every index of `files`. `Recognized` is that a schema passes. What passes is all that
`listPathIndexes` and `dropPathIndex` ask of an index, so in a schema that opens a list names every
path index and each of these can be dropped (`listPathIndexes_of_recognized`,
`dropPathIndex_of_recognized`).

Callers drop and list in any order, and statements fail. The schema stays one that opens, it loses
path indexes only, and none is dropped twice (`recognized_of_calls`). Dropping what a list names, in
any order, leaves no path index (`calls_drop_listed`).
-/

namespace LocalCache

namespace Classifier

/-! ## The policy on objects -/

section Functions

variable (physicalVersion : ℤ) (version : ℕ)

/-- One round of the policy's loop : an object joins the tables or the indexes seen. -/
def policyRound (seen : Finset String × Finset String) (object : SchemaObject) :
    Except SchemaError (Finset String × Finset String) :=
  if object.objectType = "table" ∧ (object.name = "files" ∨ object.name = "payloads") then
    if object.tableName ≠ object.name ∨ object.sql.isNone then
      .error (unrecognized physicalVersion "invalid table metadata")
    else .ok (insert object.name seen.1, seen.2)
  else if object.objectType = "index" ∧ object.name ∈ requiredIndexes version then
    if object.tableName ≠ "files" ∨ object.sql.isNone then
      .error (unrecognized physicalVersion "invalid built-in index metadata")
    else .ok (seen.1, insert object.name seen.2)
  else if object.objectType = "index" ∧ 4 ≤ version ∧
      publicIndexPrefix.toList <+: object.name.toList then
    if object.tableName ≠ "files" ∨ object.sql.isNone then
      .error (unrecognized physicalVersion "invalid public user index metadata")
    else .ok (seen.1, insert object.name seen.2)
  else .error (unrecognized physicalVersion "unexpected application object")

def validateObjectPolicy (objects : List SchemaObject) : Except SchemaError Unit := do
  let seen ← objects.foldlM (policyRound physicalVersion version) (∅, ∅)
  if seen.1 ≠ {"files", "payloads"} ∨ ¬∀ name ∈ requiredIndexes version, name ∈ seen.2 then
    .error (unrecognized physicalVersion "missing required table or index")
  else .ok ()

/-! ## The indexes of the tables -/

/-- The indexes a version creates, with the columns of their keys. -/
def expectedBuiltins : (version : ℕ) → List (String × List String)
  | 1 => [("idx_files_path", ["path"])]
  | 2 | 3 => [("idx_files_namespace_path", ["namespace", "path"])]
  | 4 | 5 => [("idx_files_lru", ["namespace", "last_accessed_at", "updated_at"]),
      ("idx_files_namespace_path", ["namespace", "path"])]
  | 6 => [("idx_files_use", ["namespace", "last_used_us"])]
  | _ => []

def uniqueColumns : List String := if version = 1 then ["path"] else ["namespace", "path"]

/-- Refuse an index for its flags, or for its columns. -/
def checkIndex (cat : Catalog) (index : IndexListRow) (bad : Bool) (reason : String)
    (expected : List String) : Except SchemaError Unit :=
  if bad then .error (unrecognized physicalVersion reason)
  else (validateIndexTerms (Sqlite.indexXinfo index.name cat) expected).mapError
    (unrecognized physicalVersion)

/-- One round of the loop over the indexes : how many are of a UNIQUE, and which built-in ones
there are. -/
def indexRound (cat : Catalog) (seen : ℕ × Finset String) (index : IndexListRow) :
    Except SchemaError (ℕ × Finset String) :=
  if index.origin = "u" then do
    checkIndex physicalVersion cat index (!index.unique || index.isPartial)
      "UNIQUE autoindex mismatch" (uniqueColumns version)
    pure (seen.1 + 1, seen.2)
  else
    let bad := index.unique || index.isPartial || decide (index.origin ≠ "c")
    match (expectedBuiltins version).lookup index.name with
    | some expected => do
      checkIndex physicalVersion cat index bad "built-in index flags mismatch" expected
      pure (seen.1, insert index.name seen.2)
    | none =>
      if 4 ≤ version ∧ publicIndexPrefix.toList <+: index.name.toList then do
        checkIndex physicalVersion cat index bad "public user index flags mismatch"
          ["namespace", "path"]
        pure seen
      else .error (unrecognized physicalVersion "unexpected index")

def validateIndexes (cat : Catalog) : Except SchemaError Unit := do
  let seen ← (Sqlite.indexList "files" cat).foldlM (indexRound physicalVersion version cat) (0, ∅)
  if seen.1 ≠ 1 ∨ seen.2.card ≠ (expectedBuiltins version).length then
    .error (unrecognized physicalVersion "required index contract mismatch")
  else if (Sqlite.indexList "payloads" cat).length ≠ 0 then
    .error (unrecognized physicalVersion "unexpected payload index")
  else .ok ()

end Functions

/-- The objects of the schema pass as those of a version. -/
structure Recognized (physicalVersion : ℤ) (version : ℕ) (cat : Catalog) : Prop where
  policy : validateObjectPolicy physicalVersion version (Sqlite.schemaObjects cat) = .ok ()
  indexes : validateIndexes physicalVersion version cat = .ok ()

end Classifier

/-! ## Listing the path indexes -/

section Functions

variable (fault : ℕ → Option String)

/-- The objects whose names start as a path index's. -/
def publicSchemaObjects : SchemaM (List SchemaObject) := do
  let objects ← schemaSelect fault Sqlite.schemaObjects
  pure (objects.filter fun o => publicIndexPrefix.toList <+: o.name.toList)

def listPathIndexesTx : SchemaM (List String) := do
  let objects ← publicSchemaObjects fault
  let names ← StateExcept.forEach (validateOwnedPathIndex fault) objects
  pure (sortBy textKey names)

def listPathIndexes (cat : Catalog) : Except Error (List String) × Catalog :=
  schemaTransaction fault (listPathIndexesTx fault) cat

end Functions

/-- The path indexes of a schema. -/
def Catalog.pathIndexes (cat : Catalog) : List CatalogObject :=
  cat.objects.filter fun o => publicIndexPrefix.toList <+: o.name.toList

namespace Sqlite

/-- What SQLite keeps in every schema. Only a trigger can share its name. -/
structure Consistent (cat : Catalog) : Prop where
  names : cat.objects.Pairwise fun o p => o.kind ≠ .trigger → p.kind ≠ .trigger →
    ¬ SameName o.name p.name
  /-- The index of a constraint has no text. -/
  constraints : ∀ o ∈ cat.objects, ∀ shape ∈ o.shape?, shape.origin ≠ .createIndex → o.sql = none

end Sqlite

/-! ## What the policy takes -/

namespace Classifier

variable {physicalVersion : ℤ} {version : ℕ}

/-- An object that the policy of a version takes. -/
inductive Allowed (version : ℕ) (o : SchemaObject) : Prop
  | table (htype : o.objectType = "table") (hname : o.name = "files" ∨ o.name = "payloads")
      (htable : o.tableName = o.name) (hsql : o.sql.isSome)
  | required (htype : o.objectType = "index") (hname : o.name ∈ requiredIndexes version)
      (htable : o.tableName = "files") (hsql : o.sql.isSome)
  | user (htype : o.objectType = "index") (hversion : 4 ≤ version)
      (hname : publicIndexPrefix.toList <+: o.name.toList) (htable : o.tableName = "files")
      (hsql : o.sql.isSome)

/-- What the loop has seen after one more object. -/
def note (seen : Finset String × Finset String) (o : SchemaObject) :
    Finset String × Finset String :=
  if o.objectType = "table" then (insert o.name seen.1, seen.2) else (seen.1, insert o.name seen.2)

theorem policyRound_eq_ok_iff (seen : Finset String × Finset String) (o : SchemaObject)
    (seen' : Finset String × Finset String) :
    policyRound physicalVersion version seen o = .ok seen' ↔
      Allowed version o ∧ note seen o = seen' := by
  constructor
  · intro h
    unfold policyRound at h
    split_ifs at h with htable hbad hrequired hbad huser hbad
    · rw [not_or, not_not, Option.isNone_iff_eq_none, ← ne_eq, ← Option.isSome_iff_ne_none] at hbad
      refine ⟨.table htable.1 htable.2 hbad.1 hbad.2, ?_⟩
      rw [note, if_pos htable.1]
      exact Except.ok.inj h
    · rw [not_or, not_not, Option.isNone_iff_eq_none, ← ne_eq, ← Option.isSome_iff_ne_none] at hbad
      refine ⟨.required hrequired.1 hrequired.2 hbad.1 hbad.2, ?_⟩
      rw [note, if_neg (by rw [hrequired.1]; decide)]
      exact Except.ok.inj h
    · rw [not_or, not_not, Option.isNone_iff_eq_none, ← ne_eq, ← Option.isSome_iff_ne_none] at hbad
      refine ⟨.user huser.1 huser.2.1 huser.2.2 hbad.1 hbad.2, ?_⟩
      rw [note, if_neg (by rw [huser.1]; decide)]
      exact Except.ok.inj h
  · rintro ⟨hallowed, rfl⟩
    unfold policyRound note
    cases hallowed with
    | table htype hname htable hsql =>
      rw [if_pos ⟨htype, hname⟩, if_neg (by simp [htable, Option.isSome_iff_ne_none.mp hsql]),
        if_pos htype]
    | required htype hname htable hsql =>
      have htable' : ¬o.objectType = "table" := by simp [htype]
      rw [if_neg fun h => htable' h.1, if_pos ⟨htype, hname⟩,
        if_neg (by simp [htable, Option.isSome_iff_ne_none.mp hsql]), if_neg htable']
    | user htype hversion hname htable hsql =>
      have htable' : ¬o.objectType = "table" := by simp [htype]
      have huser : o.objectType = "index" ∧ 4 ≤ version ∧
          publicIndexPrefix.toList <+: o.name.toList := ⟨htype, hversion, hname⟩
      have hgood : ¬(o.tableName ≠ "files" ∨ o.sql.isNone = true) := by
        simp [htable, Option.isSome_iff_ne_none.mp hsql]
      -- The name may be one of the required ones, which does the same.
      rw [if_neg fun h => htable' h.1, if_pos huser, if_neg hgood, if_neg hgood, ite_self,
        if_neg htable']

theorem mem_foldl_note (name : String) : ∀ (l : List SchemaObject)
    (seen : Finset String × Finset String),
      (name ∈ (l.foldl note seen).1 ↔
        name ∈ seen.1 ∨ ∃ o ∈ l, o.objectType = "table" ∧ o.name = name) ∧
      (name ∈ (l.foldl note seen).2 ↔
        name ∈ seen.2 ∨ ∃ o ∈ l, o.objectType ≠ "table" ∧ o.name = name)
  | [], seen => by simp
  | o :: l, seen => by
    obtain ⟨htables, hindexes⟩ := mem_foldl_note name l (note seen o)
    rw [List.foldl_cons, htables, hindexes]
    by_cases htype : o.objectType = "table"
    · simp only [note, htype, if_true, Finset.mem_insert, List.exists_mem_cons_iff, true_and, ne_eq,
        not_true_eq_false, false_and, false_or, eq_comm (a := name), or_assoc,
        or_left_comm (a := o.name = name)]
    · simp only [note, htype, if_false, Finset.mem_insert, List.exists_mem_cons_iff, false_and,
        false_or, ne_eq, not_false_eq_true, true_and, eq_comm (a := name), or_assoc,
        or_left_comm (a := o.name = name)]

theorem policyLoop_eq_ok_iff {objects : List SchemaObject} {seen seen' : Finset String × Finset String} :
    objects.foldlM (policyRound physicalVersion version) seen = .ok seen' ↔
      (∀ o ∈ objects, Allowed version o) ∧ objects.foldl note seen = seen' :=
  foldlM_eq_ok_iff policyRound_eq_ok_iff objects seen seen'

/-- The policy passes : every object is allowed, and the tables and the required indexes are
there. -/
theorem validateObjectPolicy_eq_ok_iff {objects : List SchemaObject} :
    validateObjectPolicy physicalVersion version objects = .ok () ↔
      (∀ o ∈ objects, Allowed version o) ∧
      (∀ name ∈ ["files", "payloads"], ∃ o ∈ objects, o.objectType = "table" ∧ o.name = name) ∧
      ∀ name ∈ requiredIndexes version, ∃ o ∈ objects, o.objectType ≠ "table" ∧ o.name = name := by
  unfold validateObjectPolicy
  constructor
  · intro h
    cases hloop : objects.foldlM (policyRound physicalVersion version) (∅, ∅) with
    | error e =>
      rw [hloop] at h
      cases h
    | ok seen =>
      rw [hloop] at h
      dsimp only [bind, Except.bind] at h
      split_ifs at h with hbad
      rw [ne_eq, not_or, not_not, not_not] at hbad
      obtain ⟨hall, rfl⟩ := policyLoop_eq_ok_iff.mp hloop
      refine ⟨hall, fun name hname => ?_, fun name hname => ?_⟩
      · have hseen : name ∈ (objects.foldl note (∅, ∅)).1 := by
          rw [hbad.1]
          simpa using hname
        simpa using (mem_foldl_note name objects (∅, ∅)).1.mp hseen
      · simpa using (mem_foldl_note name objects (∅, ∅)).2.mp (hbad.2 name hname)
  · rintro ⟨hall, htables, hrequired⟩
    rw [policyLoop_eq_ok_iff.mpr ⟨hall, rfl⟩]
    dsimp only [bind, Except.bind]
    rw [if_neg]
    rw [ne_eq, not_or, not_not, not_not]
    refine ⟨Finset.ext fun name => ?_, fun name hname => ?_⟩
    · rw [(mem_foldl_note name objects (∅, ∅)).1]
      constructor
      · rintro (hnone | ⟨o, ho, htype, rfl⟩)
        · simp at hnone
        · cases hall o ho with
          | table _ hname _ _ => simpa using hname
          | required hindex _ _ _ => simp [htype] at hindex
          | user hindex _ _ _ _ => simp [htype] at hindex
      · intro hname
        exact Or.inr (htables name (by simpa using hname))
    · exact (mem_foldl_note name objects (∅, ∅)).2.mpr (Or.inr (hrequired name hname))

/-! ## What the loop over the indexes takes -/

theorem checkIndex_eq_ok_iff {cat : Catalog} {index : IndexListRow} {bad : Bool} {reason : String}
    {expected : List String} :
    checkIndex physicalVersion cat index bad reason expected = .ok () ↔
      bad = false ∧ validateIndexTerms (Sqlite.indexXinfo index.name cat) expected = .ok () := by
  unfold checkIndex
  cases bad with
  | true => simp
  | false =>
    cases validateIndexTerms (Sqlite.indexXinfo index.name cat) expected <;> simp [Except.mapError]

/-- What an index of `files` can be in a version. -/
inductive Fits (version : ℕ) (cat : Catalog) (index : IndexListRow) : Prop
  | unique (horigin : index.origin = "u") (hunique : index.unique = true)
      (hwhole : index.isPartial = false)
      (hterms : validateIndexTerms (Sqlite.indexXinfo index.name cat) (uniqueColumns version) = .ok ())
  | builtin (expected : List String) (hname : (expectedBuiltins version).lookup index.name = some expected)
      (horigin : index.origin = "c") (hunique : index.unique = false)
      (hwhole : index.isPartial = false)
      (hterms : validateIndexTerms (Sqlite.indexXinfo index.name cat) expected = .ok ())
  | user (hname : (expectedBuiltins version).lookup index.name = none) (hversion : 4 ≤ version)
      (hpublic : publicIndexPrefix.toList <+: index.name.toList) (horigin : index.origin = "c")
      (hunique : index.unique = false) (hwhole : index.isPartial = false)
      (hterms : validateIndexTerms (Sqlite.indexXinfo index.name cat) ["namespace", "path"] = .ok ())

/-- Whether an index counts as one of the built-in ones. -/
def isBuiltin (version : ℕ) (index : IndexListRow) : Bool :=
  index.origin ≠ "u" && ((expectedBuiltins version).lookup index.name).isSome

/-- What the loop has counted after one more index. -/
def tally (version : ℕ) (seen : ℕ × Finset String) (index : IndexListRow) : ℕ × Finset String :=
  if index.origin = "u" then (seen.1 + 1, seen.2)
  else if isBuiltin version index then (seen.1, insert index.name seen.2) else seen

theorem indexRound_eq_ok_iff {cat : Catalog} (seen : ℕ × Finset String) (index : IndexListRow)
    (seen' : ℕ × Finset String) :
    indexRound physicalVersion version cat seen index = .ok seen' ↔
      Fits version cat index ∧ tally version seen index = seen' := by
  unfold indexRound
  by_cases horigin : index.origin = "u"
  · rw [if_pos horigin, bind_pure_eq_ok_iff, checkIndex_eq_ok_iff, tally, if_pos horigin]
    refine and_congr_left fun _ => ⟨fun ⟨hflags, hterms⟩ => ?_, fun h => ?_⟩
    · simp only [Bool.or_eq_false_iff, Bool.not_eq_false'] at hflags
      exact .unique horigin hflags.1 hflags.2 hterms
    · cases h with
      | unique _ hunique hwhole hterms => exact ⟨by simp [hunique, hwhole], hterms⟩
      | builtin _ _ hcreated _ _ _ => simp [horigin] at hcreated
      | user _ _ _ hcreated _ _ _ => simp [horigin] at hcreated
  · rw [if_neg horigin, tally, if_neg horigin]
    dsimp only
    cases hname : (expectedBuiltins version).lookup index.name with
    | some expected =>
      have hbuiltin : isBuiltin version index = true := by simp [isBuiltin, horigin, hname]
      dsimp only
      rw [bind_pure_eq_ok_iff, checkIndex_eq_ok_iff, if_pos hbuiltin]
      refine and_congr_left fun _ => ⟨fun ⟨hflags, hterms⟩ => ?_, fun h => ?_⟩
      · simp only [Bool.or_eq_false_iff, decide_eq_false_iff_not, not_not, ne_eq] at hflags
        exact .builtin expected hname hflags.2 hflags.1.1 hflags.1.2 hterms
      · cases h with
        | unique hunique _ _ _ => exact absurd hunique horigin
        | builtin expected' hname' hcreated hunique hwhole hterms =>
          obtain rfl := Option.some.inj (hname.symm.trans hname')
          exact ⟨by simp [hcreated, hunique, hwhole], hterms⟩
        | user hname' _ _ _ _ _ _ => simp [hname] at hname'
    | none =>
      have hbuiltin : ¬isBuiltin version index = true := by simp [isBuiltin, hname]
      dsimp only
      rw [if_neg hbuiltin]
      by_cases hpublic : 4 ≤ version ∧ publicIndexPrefix.toList <+: index.name.toList
      · rw [if_pos hpublic, bind_pure_eq_ok_iff, checkIndex_eq_ok_iff]
        refine and_congr_left fun _ => ⟨fun ⟨hflags, hterms⟩ => ?_, fun h => ?_⟩
        · simp only [Bool.or_eq_false_iff, decide_eq_false_iff_not, not_not, ne_eq] at hflags
          exact .user hname hpublic.1 hpublic.2 hflags.2 hflags.1.1 hflags.1.2 hterms
        · cases h with
          | unique hunique _ _ _ => exact absurd hunique horigin
          | builtin _ hname' _ _ _ _ => simp [hname] at hname'
          | user _ _ _ hcreated hunique hwhole hterms =>
            exact ⟨by simp [hcreated, hunique, hwhole], hterms⟩
      · rw [if_neg hpublic]
        refine iff_of_false (by simp) fun h => ?_
        cases h.1 with
        | unique hunique _ _ _ => exact horigin hunique
        | builtin _ hname' _ _ _ _ => simp [hname] at hname'
        | user _ hversion hprefix _ _ _ _ => exact hpublic ⟨hversion, hprefix⟩

/-- The names of the built-in indexes of a list. -/
def builtinNames (version : ℕ) (l : List IndexListRow) : Finset String :=
  ((l.filter (isBuiltin version)).map IndexListRow.name).toFinset

theorem foldl_tally : ∀ (l : List IndexListRow) (n : ℕ) (s : Finset String),
    l.foldl (tally version) (n, s) = (n + l.countP (·.origin = "u"), builtinNames version l ∪ s)
  | [], n, s => by simp [builtinNames]
  | index :: l, n, s => by
    rw [List.foldl_cons, tally]
    by_cases horigin : index.origin = "u"
    · have hbuiltin : isBuiltin version index = false := by simp [isBuiltin, horigin]
      rw [if_pos horigin, foldl_tally l, List.countP_cons_of_pos (by simpa using horigin),
        builtinNames, builtinNames, List.filter_cons_of_neg (by simp [hbuiltin]), add_right_comm,
        add_assoc]
    · rw [if_neg horigin]
      by_cases hbuiltin : isBuiltin version index = true
      · rw [if_pos hbuiltin, foldl_tally l, List.countP_cons_of_neg (by simpa using horigin),
          builtinNames, builtinNames, List.filter_cons_of_pos hbuiltin, List.map_cons,
          List.toFinset_cons, Finset.union_insert, Finset.insert_union]
      · rw [if_neg hbuiltin, foldl_tally l, List.countP_cons_of_neg (by simpa using horigin),
          builtinNames, builtinNames, List.filter_cons_of_neg hbuiltin]

/-- The indexes pass : each fits, there is one UNIQUE, every built-in one, and none on
`payloads`. -/
theorem validateIndexes_eq_ok_iff {cat : Catalog} :
    validateIndexes physicalVersion version cat = .ok () ↔
      (∀ index ∈ Sqlite.indexList "files" cat, Fits version cat index) ∧
      (Sqlite.indexList "files" cat).countP (·.origin = "u") = 1 ∧
      (builtinNames version (Sqlite.indexList "files" cat)).card = (expectedBuiltins version).length ∧
      Sqlite.indexList "payloads" cat = [] := by
  have hloop : ∀ seen, (Sqlite.indexList "files" cat).foldlM
      (indexRound physicalVersion version cat) (0, ∅) = .ok seen ↔
        (∀ index ∈ Sqlite.indexList "files" cat, Fits version cat index) ∧
        ((Sqlite.indexList "files" cat).countP (·.origin = "u"),
          builtinNames version (Sqlite.indexList "files" cat)) = seen := by
    intro seen
    rw [foldlM_eq_ok_iff indexRound_eq_ok_iff, foldl_tally, Nat.zero_add, Finset.union_empty]
  unfold validateIndexes
  constructor
  · intro h
    cases hrun : (Sqlite.indexList "files" cat).foldlM
        (indexRound physicalVersion version cat) (0, ∅) with
    | error e =>
      rw [hrun] at h
      cases h
    | ok seen =>
      rw [hrun] at h
      dsimp only [bind, Except.bind] at h
      obtain ⟨hfits, rfl⟩ := (hloop seen).mp hrun
      split_ifs at h with hbad hpayloads
      rw [ne_eq, ne_eq, not_or, not_not, not_not] at hbad
      exact ⟨hfits, hbad.1, hbad.2, List.length_eq_zero_iff.mp (not_not.mp hpayloads)⟩
  · rintro ⟨hfits, hunique, hbuiltins, hpayloads⟩
    rw [(hloop _).mpr ⟨hfits, rfl⟩]
    dsimp only [bind, Except.bind]
    rw [if_neg (by simp [hunique, hbuiltins]), if_neg (by simp [hpayloads])]

/-- The built-in indexes are required. -/
theorem mem_requiredIndexes_of_mem : ∀ entry ∈ expectedBuiltins version,
    entry.1 ∈ requiredIndexes version := by
  unfold expectedBuiltins
  split <;> simp [requiredIndexes]

end Classifier

open Classifier

variable {physicalVersion : ℤ} {version : ℕ} {cat cat' : Catalog} {suffix : String}
  {o : CatalogObject}

/-! ## The names of path indexes -/

/-- A path index's name starts with the prefix's letter, in whatever case. -/
theorem Sqlite.head?_of_sameName {name : String} (h : SameName name (publicIndexPrefix ++ suffix)) :
    ((strBytes name).map asciiLower).head? = some 108 := by
  have hpublic : (strBytes publicIndexPrefix).map asciiLower = 108 :: strBytes "c_user_" := by
    decide
  rw [h, strBytes_append, List.map_append, hpublic]
  rfl

theorem not_sameName_of_mem_requiredIndexes {name : String} (hname : name ∈ requiredIndexes version) :
    ¬ Sqlite.SameName name (publicIndexPrefix ++ suffix) := by
  intro hsame
  have hhead := Sqlite.head?_of_sameName hsame
  have hrequired : ∀ name ∈ requiredIndexes version,
      ((strBytes name).map asciiLower).head? ≠ some 108 := by
    unfold requiredIndexes
    split <;> decide
  exact hrequired name hname hhead

/-- A name with the prefix is the prefix and a suffix. -/
theorem exists_suffix {name : String} (h : publicIndexPrefix.toList <+: name.toList) :
    ∃ suffix, name = publicIndexPrefix ++ suffix := by
  obtain ⟨cs, hcs⟩ := h
  refine ⟨String.ofList cs, String.toList_injective ?_⟩
  rw [String.toList_append, String.toList_ofList, hcs]

theorem lookup_eq_none_of_sameName {name : String}
    (h : Sqlite.SameName name (publicIndexPrefix ++ suffix)) :
    (expectedBuiltins version).lookup name = none := by
  rw [List.lookup_eq_none_iff]
  intro entry hentry
  rw [bne_iff_ne]
  rintro rfl
  exact not_sameName_of_mem_requiredIndexes (mem_requiredIndexes_of_mem entry hentry) h

/-! ## What passes is a path index of localcache's own -/

theorem Sqlite.mem_schemaObjects {row : SchemaObject} :
    row ∈ Sqlite.schemaObjects cat ↔
      ∃ o ∈ cat.objects, Sqlite.isReserved o.name = false ∧ o.row = row := by
  rw [Sqlite.schemaObjects, mem_sortBy, List.mem_filter, List.mem_map, Bool.not_eq_true']
  constructor
  · rintro ⟨⟨o, ho, rfl⟩, hname⟩
    exact ⟨o, ho, hname, rfl⟩
  · rintro ⟨o, ho, hname, rfl⟩
    exact ⟨⟨o, ho, rfl⟩, hname⟩

theorem Sqlite.mem_indexList {table : String} {shape : IndexShape} (ho : o ∈ cat.objects)
    (hkind : o.kind = .index shape) (htable : Sqlite.SameName o.tableName table) :
    ⟨o.name, shape.unique, shape.origin.text, shape.hasWhere⟩ ∈ Sqlite.indexList table cat := by
  rw [Sqlite.indexList, mem_sortBy, List.mem_filterMap]
  refine ⟨o, ho, ?_⟩
  rw [if_pos htable, shape?_eq_some hkind]
  rfl

theorem exists_shape_of_row (h : o.row.objectType = "index") : ∃ shape, o.kind = .index shape := by
  have htext : o.kind.text = "index" := h
  cases hkind : o.kind with
  | index shape => exact ⟨shape, rfl⟩
  | table => exact absurd (hkind ▸ htext) (by decide)
  | view => exact absurd (hkind ▸ htext) (by decide)
  | trigger => exact absurd (hkind ▸ htext) (by decide)

/-- The one auxiliary column of terms that pass is the rowid. -/
theorem endsInRowid_of_validateIndexTerms {shape : IndexShape} {expected : List String}
    (h : validateIndexTerms shape.rows expected = .ok ()) : shape.EndsInRowid := by
  unfold validateIndexTerms at h
  dsimp only at h
  rw [IndexShape.filter_rows, IndexShape.filter_auxiliary] at h
  split_ifs at h
  cases hauxiliary : shape.auxiliary with
  | nil => simp [hauxiliary] at h
  | cons c rest =>
    cases rest with
    | cons c' rest => simp [hauxiliary] at h
    | nil =>
      rw [hauxiliary] at h
      simp only [List.map_cons, List.map_nil] at h
      split_ifs at h with hbad
      obtain ⟨target, descending, collation⟩ := c
      simp only [Bool.or_eq_true, decide_eq_true_eq, not_or, ne_eq, not_not, Bool.not_eq_true,
        Bool.not_eq_true', Bool.not_eq_false] at hbad
      obtain ⟨⟨⟨hcid, hname⟩, hascending⟩, hbinary⟩ := hbad
      cases target with
      | column cid name => simp [IndexColumn.row] at hname
      | expression => simp [IndexColumn.row] at hcid
      | rowid =>
        cases collation with
        | none => simp [IndexXinfoRow.isBinary, IndexColumn.row] at hbinary
        | some value =>
          have hsame : identifierEq value "BINARY" = true := by
            simpa [IndexXinfoRow.isBinary, IndexColumn.row] using hbinary
          have hdescending : descending = false := hascending
          exact ⟨value, by rw [hauxiliary, hdescending], identifierEq_iff.mp hsame⟩

namespace Classifier.Recognized

variable (h : Recognized physicalVersion version cat)

include h

theorem allowed (ho : o ∈ cat.objects) (hname : Sqlite.isReserved o.name = false) :
    Allowed version o.row :=
  (validateObjectPolicy_eq_ok_iff.mp h.policy).1 o.row (Sqlite.mem_schemaObjects.mpr ⟨o, ho, hname, rfl⟩)

/-- An object with the name of a path index is one, as far as the policy sees. -/
theorem user (ho : o ∈ cat.objects) (hname : Sqlite.SameName o.name (publicIndexPrefix ++ suffix)) :
    (∃ shape, o.kind = .index shape) ∧ publicIndexPrefix.toList <+: o.name.toList ∧
      o.tableName = "files" ∧ o.sql.isSome := by
  cases h.allowed ho (Sqlite.isReserved_eq_false hname) with
  | table _ htable _ _ =>
    have hhead := Sqlite.head?_of_sameName hname
    have hname' : o.name = "files" ∨ o.name = "payloads" := htable
    rcases hname' with hfiles | hpayloads
    · exact absurd (hfiles ▸ hhead) (by decide)
    · exact absurd (hpayloads ▸ hhead) (by decide)
  | required _ hrequired _ _ => exact absurd hname (not_sameName_of_mem_requiredIndexes hrequired)
  | user htype _ hpublic htable hsql => exact ⟨exists_shape_of_row htype, hpublic, htable, hsql⟩

variable (hsqlite : Sqlite.Consistent cat)

include hsqlite

/-- No other object has the name of a path index, in whatever case. -/
theorem named_eq (ho : o ∈ cat.objects)
    (hname : Sqlite.SameName o.name (publicIndexPrefix ++ suffix)) :
    cat.named (publicIndexPrefix ++ suffix) = [o] := by
  have hindex : ∀ p ∈ cat.named (publicIndexPrefix ++ suffix),
      p.kind ≠ .trigger ∧ Sqlite.SameName p.name (publicIndexPrefix ++ suffix) := by
    intro p hp
    obtain ⟨hp, hsame⟩ := Catalog.mem_named.mp hp
    obtain ⟨⟨shape, hkind⟩, -⟩ := h.user hp hsame
    exact ⟨by simp [hkind], hsame⟩
  have hpair : (cat.named (publicIndexPrefix ++ suffix)).Pairwise fun _ _ => False := by
    refine (hsqlite.names.sublist List.filter_sublist).imp_of_mem fun {p q} hp hq hne => ?_
    obtain ⟨hp, hpname⟩ := hindex p hp
    obtain ⟨hq, hqname⟩ := hindex q hq
    exact hne hp hq (hpname.trans hqname.symm)
  have hmem := Catalog.mem_named.mpr ⟨ho, hname⟩
  cases hnamed : cat.named (publicIndexPrefix ++ suffix) with
  | nil => simp [hnamed] at hmem
  | cons p rest =>
    cases rest with
    | nil =>
      rw [hnamed, List.mem_singleton] at hmem
      rw [hmem]
    | cons q rest =>
      rw [hnamed, List.pairwise_cons] at hpair
      exact (hpair.1 q List.mem_cons_self).elim

theorem owned (ho : o ∈ cat.objects)
    (hname : Sqlite.SameName o.name (publicIndexPrefix ++ suffix)) :
    OwnedPathIndex suffix o ∧ ∀ shape ∈ o.shape?, shape.EndsInRowid := by
  obtain ⟨⟨shape, hkind⟩, hpublic, hfiles, hsql⟩ := h.user ho hname
  have hshape := shape?_eq_some hkind
  have hfits := (validateIndexes_eq_ok_iff.mp h.indexes).1
    ⟨o.name, shape.unique, shape.origin.text, shape.hasWhere⟩
    (Sqlite.mem_indexList ho hkind (by rw [hfiles]; exact .refl "files"))
  cases hfits with
  | unique horigin _ _ _ =>
    have hconstraint : shape.origin ≠ .createIndex := by
      rintro hcreated
      have horigin : shape.origin.text = "u" := horigin
      exact absurd (hcreated ▸ horigin) (by decide)
    rw [hsqlite.constraints o ho shape hshape hconstraint] at hsql
    cases hsql
  | builtin _ hbuiltin _ _ _ _ =>
    rw [lookup_eq_none_of_sameName hname] at hbuiltin
    cases hbuiltin
  | user _ _ _ horigin hunique hwhole hterms =>
    rw [Sqlite.indexXinfo_of_named (h.named_eq hsqlite ho hname) hkind] at hterms
    have hcreated : shape.origin = .createIndex := by
      have horigin : shape.origin.text = "c" := horigin
      cases hcase : shape.origin with
      | createIndex => rfl
      | uniqueConstraint => exact absurd (hcase ▸ horigin) (by decide)
      | primaryKey => exact absurd (hcase ▸ horigin) (by decide)
    refine ⟨⟨hpublic, hname, hfiles, hsql, shape, hkind, hcreated, hunique, hwhole,
      validateIndexTerms_ok hterms⟩, fun shape' hshape' => ?_⟩
    obtain rfl := Option.some.inj (hshape.symm.trans hshape')
    exact endsInRowid_of_validateIndexTerms hterms

end Classifier.Recognized

/-! ## Without one of the path indexes -/

/-- A call drops one object, an index of localcache's own, or leaves the schema. -/
theorem dropPathIndex_cases (fault : ℕ → Option String) (suffix : String) (cat : Catalog) :
    (∃ o before after, (dropPathIndex fault suffix cat).1 = .ok true ∧
      cat.objects = before ++ o :: after ∧
      (dropPathIndex fault suffix cat).2.objects = before ++ after ∧ OwnedPathIndex suffix o) ∨
    (dropPathIndex fault suffix cat).1 ≠ .ok true ∧ (dropPathIndex fault suffix cat).2 = cat := by
  unfold dropPathIndex
  rcases schemaTransaction_cases (dropPathIndexTx fault suffix) cat with
    ⟨dropped, t, t', hbody, rfl, hrun⟩ | ⟨e, hrun⟩
  · rw [hrun]
    rcases dropPathIndexTx_ok hbody with ⟨rfl, o, before, after, hbefore, hafter, howned⟩ | ⟨rfl, hcat⟩
    · exact Or.inl ⟨o, before, after, rfl, hbefore, hafter, howned⟩
    · exact Or.inr ⟨by simp, hcat⟩
  · rw [hrun]
    exact Or.inr ⟨by simp, rfl⟩

namespace Sqlite.Consistent

theorem sublist (h : Sqlite.Consistent cat) (hsub : cat'.objects.Sublist cat.objects) :
    Sqlite.Consistent cat' where
  names := h.names.sublist hsub
  constraints o ho := h.constraints o (hsub.subset ho)

/-- Objects that share a name are the same one, triggers apart. -/
theorem not_sameName_of_split (h : Sqlite.Consistent cat) {before after : List CatalogObject}
    (hobjects : cat.objects = before ++ o :: after) (hkind : o.kind ≠ .trigger) :
    ∀ p ∈ before ++ after, p.kind ≠ .trigger → ¬ Sqlite.SameName o.name p.name := by
  have hnames := h.names
  rw [hobjects, List.pairwise_append, List.pairwise_cons] at hnames
  obtain ⟨-, ⟨hafter, -⟩, hbefore⟩ := hnames
  intro p hp hp'
  rcases List.mem_append.mp hp with hp | hp
  · exact fun hsame => hbefore p hp o List.mem_cons_self hp' hkind hsame.symm
  · exact hafter p hp hkind hp'

end Sqlite.Consistent

/-- An index of another name is found as before. -/
theorem Sqlite.indexXinfo_of_split {name : String} {before after : List CatalogObject}
    (hbefore : cat.objects = before ++ o :: after) (hafter : cat'.objects = before ++ after)
    (hname : ¬ SameName o.name name) : Sqlite.indexXinfo name cat' = Sqlite.indexXinfo name cat := by
  have hfind : findIndex name cat' = findIndex name cat := by
    unfold findIndex
    rw [hbefore, hafter, List.find?_append, List.find?_append,
      List.find?_cons_of_neg (by simp [hname])]
  rw [Sqlite.indexXinfo, Sqlite.indexXinfo, hfind]

/-- The indexes of a table, one of them first. -/
theorem Sqlite.perm_indexList {table : String} {shape : IndexShape}
    {before after : List CatalogObject} (hbefore : cat.objects = before ++ o :: after)
    (hafter : cat'.objects = before ++ after) (hkind : o.kind = .index shape)
    (htable : SameName o.tableName table) :
    (indexList table cat).Perm
      (⟨o.name, shape.unique, shape.origin.text, shape.hasWhere⟩ :: indexList table cat') := by
  unfold indexList
  refine (sortBy_perm _ _).trans (List.Perm.trans ?_ ((sortBy_perm _ _).symm.cons _))
  rw [hbefore, hafter]
  refine (List.perm_middle.filterMap _).trans ?_
  rw [List.filterMap_cons_some]
  rw [if_pos htable, shape?_eq_some hkind]
  rfl

theorem Sqlite.indexList_of_split {table : String} {before after : List CatalogObject}
    (hbefore : cat.objects = before ++ o :: after) (hafter : cat'.objects = before ++ after)
    (htable : ¬ SameName o.tableName table) : indexList table cat' = indexList table cat := by
  unfold indexList
  rw [hbefore, hafter, List.filterMap_append, List.filterMap_append, List.filterMap_cons_none]
  exact if_neg htable

theorem Classifier.Fits.of_indexXinfo {index : IndexListRow} (h : Fits version cat index)
    (hxinfo : Sqlite.indexXinfo index.name cat' = Sqlite.indexXinfo index.name cat) :
    Fits version cat' index := by
  cases h with
  | unique horigin hunique hwhole hterms =>
    exact .unique horigin hunique hwhole (hxinfo ▸ hterms)
  | builtin expected hname horigin hunique hwhole hterms =>
    exact .builtin expected hname horigin hunique hwhole (hxinfo ▸ hterms)
  | user hname hversion hpublic horigin hunique hwhole hterms =>
    exact .user hname hversion hpublic horigin hunique hwhole (hxinfo ▸ hterms)

namespace Classifier.Recognized

variable (h : Recognized physicalVersion version cat) {before after : List CatalogObject}
  (hbefore : cat.objects = before ++ o :: after) (hafter : cat'.objects = before ++ after)
  (howned : OwnedPathIndex suffix o)

include h hbefore hafter howned

theorem policy_of_split :
    validateObjectPolicy physicalVersion version (Sqlite.schemaObjects cat') = .ok () := by
  obtain ⟨hall, htables, hrequired⟩ := validateObjectPolicy_eq_ok_iff.mp h.policy
  have hmem : ∀ p, p ∈ cat.objects ↔ p = o ∨ p ∈ cat'.objects := by
    intro p
    rw [hbefore, hafter]
    simp [or_left_comm]
  have hkept : ∀ row ∈ Sqlite.schemaObjects cat, row ≠ o.row → row ∈ Sqlite.schemaObjects cat' := by
    intro row hrow hne
    obtain ⟨p, hp, hname, rfl⟩ := Sqlite.mem_schemaObjects.mp hrow
    rcases (hmem p).mp hp with rfl | hp
    · exact absurd rfl hne
    · exact Sqlite.mem_schemaObjects.mpr ⟨p, hp, hname, rfl⟩
  obtain ⟨shape, hkind, -⟩ := howned.shape
  refine validateObjectPolicy_eq_ok_iff.mpr ⟨fun row hrow => ?_, fun name hname => ?_,
    fun name hname => ?_⟩
  · obtain ⟨p, hp, hname, rfl⟩ := Sqlite.mem_schemaObjects.mp hrow
    exact hall p.row (Sqlite.mem_schemaObjects.mpr ⟨p, (hmem p).mpr (Or.inr hp), hname, rfl⟩)
  · obtain ⟨row, hrow, htype, hrowname⟩ := htables name hname
    refine ⟨row, hkept row hrow ?_, htype, hrowname⟩
    rintro rfl
    simp [CatalogObject.row, hkind, ObjectKind.text] at htype
  · obtain ⟨row, hrow, htype, hrowname⟩ := hrequired name hname
    refine ⟨row, hkept row hrow ?_, htype, hrowname⟩
    rintro rfl
    exact not_sameName_of_mem_requiredIndexes (hrowname ▸ hname) howned.sameName

theorem indexes_of_split (hsqlite : Sqlite.Consistent cat) :
    validateIndexes physicalVersion version cat' = .ok () := by
  obtain ⟨hfits, hunique, hbuiltins, hpayloads⟩ := validateIndexes_eq_ok_iff.mp h.indexes
  obtain ⟨shape, hkind, hcreated, -⟩ := howned.shape
  have hothers := hsqlite.not_sameName_of_split hbefore (by simp [hkind])
  have hperm := Sqlite.perm_indexList hbefore hafter hkind
    (show Sqlite.SameName o.tableName "files" by rw [howned.onFiles]; exact .refl "files")
  have hplain : isBuiltin version
      ⟨o.name, shape.unique, shape.origin.text, shape.hasWhere⟩ = false := by
    simp [isBuiltin, lookup_eq_none_of_sameName howned.sameName]
  refine validateIndexes_eq_ok_iff.mpr ⟨fun index hindex => ?_, ?_, ?_, ?_⟩
  · obtain ⟨p, hp, shape', hkind', rfl⟩ := Sqlite.exists_of_mem_indexList hindex
    refine (hfits _ (hperm.symm.subset (List.mem_cons_of_mem _ hindex))).of_indexXinfo ?_
    exact Sqlite.indexXinfo_of_split hbefore hafter (hothers p (hafter ▸ hp) (by simp [hkind']))
  · rw [hperm.countP_eq, List.countP_cons_of_neg (by simp [hcreated, IndexOrigin.text])] at hunique
    exact hunique
  · have hnames : builtinNames version (Sqlite.indexList "files" cat') =
        builtinNames version (Sqlite.indexList "files" cat) := by
      unfold builtinNames
      rw [List.toFinset_eq_of_perm _ _ ((hperm.filter _).map _),
        List.filter_cons_of_neg (by simp [hplain])]
    rw [hnames, hbuiltins]
  · rw [Sqlite.indexList_of_split hbefore hafter (by rw [howned.onFiles]; decide), hpayloads]

theorem of_split (hsqlite : Sqlite.Consistent cat) :
    Recognized physicalVersion version cat' ∧ Sqlite.Consistent cat' := by
  refine ⟨⟨h.policy_of_split hbefore hafter howned, h.indexes_of_split hbefore hafter howned hsqlite⟩,
    hsqlite.sublist ?_⟩
  rw [hbefore, hafter]
  exact List.Sublist.append (List.Sublist.refl _) (List.sublist_cons_self o after)

end Classifier.Recognized

/-! ## What a call does without faults -/

theorem schemaTransaction_noFault {α : Type} {body : SchemaM α} {a : α} {n : ℕ}
    (hbody : body ⟨cat, 1⟩ = .ok (a, ⟨cat', n⟩)) : schemaTransaction noFault body cat = (.ok a, cat') := by
  have hrun : (do
      schemaSelect noFault fun _ => ()
      let a ← body
      schemaSelect noFault fun _ => ()
      pure a : SchemaM α) ⟨cat, 0⟩ = .ok (a, ⟨cat', n + 1⟩) := by
    rw [StateExcept.bind_of_ok (schemaSelect_noFault _ _), StateExcept.bind_of_ok hbody,
      StateExcept.bind_of_ok (schemaSelect_noFault _ _)]
    rfl
  rw [schemaTransaction, hrun]

/-- In a schema that opens, a drop never fails : it drops the index of the name, if there is one. -/
theorem dropPathIndex_of_recognized (h : Recognized physicalVersion version cat)
    (hsqlite : Sqlite.Consistent cat) (suffix : String) :
    (dropPathIndex noFault suffix cat).1 =
      .ok (cat.objects.any fun o => decide (Sqlite.SameName o.name (publicIndexPrefix ++ suffix))) := by
  cases hany : cat.objects.any fun o => decide (Sqlite.SameName o.name (publicIndexPrefix ++ suffix)) with
  | true =>
    obtain ⟨o, ho, hname⟩ := List.any_eq_true.mp hany
    rw [decide_eq_true_eq] at hname
    obtain ⟨howned, hrowid⟩ := h.owned hsqlite ho hname
    exact dropPathIndex_noFault (h.named_eq hsqlite ho hname) howned hrowid
  | false =>
    have hnamed : cat.named (publicIndexPrefix ++ suffix) = [] := by
      refine List.filter_eq_nil_iff.mpr fun o ho hname => ?_
      exact absurd hname (List.any_eq_false.mp hany o ho)
    have hbody : dropPathIndexTx noFault suffix ⟨cat, 1⟩ = .ok (false, ⟨cat, 2⟩) := by
      unfold dropPathIndexTx
      rw [StateExcept.bind_of_ok (resolveSchemaObject_noFault_none hnamed)]
      rfl
    rw [dropPathIndex, schemaTransaction_noFault hbody]

namespace Classifier.Recognized

variable (h : Recognized physicalVersion version cat) (hsqlite : Sqlite.Consistent cat)

include h hsqlite

theorem forEach_owned : ∀ (rows : List SchemaObject) (n : ℕ),
    (∀ row ∈ rows, ∃ o ∈ cat.pathIndexes, o.row = row) → ∃ n',
      StateExcept.forEach (validateOwnedPathIndex noFault) rows ⟨cat, n⟩ =
        .ok (rows.map SchemaObject.name, ⟨cat, n'⟩)
  | [], n, _ => ⟨n, rfl⟩
  | row :: rows, n, hrows => by
    obtain ⟨o, ho, rfl⟩ := hrows row List.mem_cons_self
    obtain ⟨ho, hpublic⟩ := List.mem_filter.mp ho
    obtain ⟨suffix, hsuffix⟩ := exists_suffix (of_decide_eq_true hpublic)
    have hname : Sqlite.SameName o.name (publicIndexPrefix ++ suffix) := hsuffix ▸ .refl o.name
    obtain ⟨howned, hrowid⟩ := h.owned hsqlite ho hname
    obtain ⟨n', hrest⟩ := forEach_owned rows (n + 2) fun row hrow => hrows row (List.mem_cons_of_mem _ hrow)
    refine ⟨n', ?_⟩
    rw [StateExcept.forEach, StateExcept.bind_of_ok
      (validateOwnedPathIndex_noFault (h.named_eq hsqlite ho hname) howned hrowid),
      StateExcept.bind_of_ok hrest]
    rfl

/-- The path indexes have names of their own. -/
theorem nodup_names : ((cat.pathIndexes.map CatalogObject.name).map textKey).Nodup := by
  refine List.Nodup.map textKey_injective (List.pairwise_map.mpr ?_)
  refine (hsqlite.names.sublist List.filter_sublist).imp_of_mem fun {o p} ho hp hne => ?_
  have hindex : ∀ q ∈ cat.pathIndexes, q.kind ≠ .trigger := by
    intro q hq
    obtain ⟨hq, hpublic⟩ := List.mem_filter.mp hq
    obtain ⟨suffix, hsuffix⟩ := exists_suffix (of_decide_eq_true hpublic)
    have hname : Sqlite.SameName q.name (publicIndexPrefix ++ suffix) := hsuffix ▸ .refl q.name
    obtain ⟨⟨shape, hkind⟩, -⟩ := h.user hq hname
    simp [hkind]
  intro hname
  exact hne (hindex o ho) (hindex p hp) (hname ▸ .refl o.name)

end Classifier.Recognized

theorem perm_publicSchemaObjects (cat : Catalog) :
    ((Sqlite.schemaObjects cat).filter fun o => publicIndexPrefix.toList <+: o.name.toList).Perm
      (cat.pathIndexes.map CatalogObject.row) := by
  refine ((sortBy_perm _ _).filter _).trans (List.Perm.of_eq ?_)
  rw [List.filter_filter, List.filter_map, Catalog.pathIndexes]
  refine congrArg _ (List.filter_congr fun o _ => ?_)
  by_cases hpublic : publicIndexPrefix.toList <+: o.name.toList
  · obtain ⟨suffix, hsuffix⟩ := exists_suffix hpublic
    have hname : Sqlite.SameName o.name (publicIndexPrefix ++ suffix) := hsuffix ▸ .refl o.name
    simp [CatalogObject.row, hpublic, Sqlite.isReserved_eq_false hname]
  · simp [CatalogObject.row, hpublic]

/-- In a schema that opens, a list is the names of all path indexes, in order. -/
theorem listPathIndexes_of_recognized (h : Recognized physicalVersion version cat)
    (hsqlite : Sqlite.Consistent cat) :
    listPathIndexes noFault cat = (.ok (sortBy textKey (cat.pathIndexes.map CatalogObject.name)), cat) := by
  have hperm := perm_publicSchemaObjects cat
  obtain ⟨n, hloop⟩ := h.forEach_owned hsqlite
    ((Sqlite.schemaObjects cat).filter fun o => publicIndexPrefix.toList <+: o.name.toList) 2
    fun row hrow => List.mem_map.mp (hperm.subset hrow)
  have hnames : ((Sqlite.schemaObjects cat).filter fun o =>
      publicIndexPrefix.toList <+: o.name.toList).map SchemaObject.name |>.Perm
        (cat.pathIndexes.map CatalogObject.name) := by
    have hmap := hperm.map SchemaObject.name
    rwa [List.map_map] at hmap
  have hsorted := sortBy_eq_of_perm (pairwise_sortBy_lt textKey (h.nodup_names hsqlite))
    ((sortBy_perm textKey _).trans hnames.symm)
  refine schemaTransaction_noFault (n := n) ?_
  have hobjects : publicSchemaObjects noFault ⟨cat, 1⟩ = .ok ((Sqlite.schemaObjects cat).filter
      fun o => publicIndexPrefix.toList <+: o.name.toList, ⟨cat, 2⟩) := rfl
  rw [listPathIndexesTx, StateExcept.bind_of_ok hobjects, StateExcept.bind_of_ok hloop, ← hsorted]
  rfl

/-! ## Calls in any order, with any faults -/

inductive IndexCall
  | drop (suffix : String)
  | list
  deriving DecidableEq, Repr

inductive IndexReply
  | dropped (reply : Except Error Bool)
  | listed (reply : Except Error (List String))

def IndexCall.run (fault : ℕ → Option String) : IndexCall → Catalog → IndexReply × Catalog
  | .drop suffix, cat => ((dropPathIndex fault suffix cat).map .dropped id)
  | .list, cat => ((listPathIndexes fault cat).map .listed id)

/-- Calls one after the other, each with the statements that fail in it. Calls of several callers
are in some order too, as each is a transaction. -/
def runCalls : List ((ℕ → Option String) × IndexCall) → Catalog → List IndexReply × Catalog
  | [], cat => ([], cat)
  | (fault, call) :: calls, cat =>
    ((call.run fault cat).1 :: (runCalls calls (call.run fault cat).2).1,
      (runCalls calls (call.run fault cat).2).2)

/-- The suffix a call dropped an index of. -/
def IndexCall.dropped? : IndexCall → IndexReply → Option String
  | .drop suffix, .dropped (.ok true) => some suffix
  | _, _ => none

/-- The suffixes that were dropped in a run, in order. -/
def droppedSuffixes (calls : List ((ℕ → Option String) × IndexCall)) (cat : Catalog) : List String :=
  (calls.zip (runCalls calls cat).1).filterMap fun p => p.1.2.dropped? p.2

/-! ## A list leaves the schema -/

/-- The schema is the one before. -/
def SameCatalog (t t' : SchemaTx) : Prop := t'.catalog = t.catalog

theorem SameCatalog.refl (t : SchemaTx) : SameCatalog t t := Eq.refl t.catalog

theorem SameCatalog.trans (s t u : SchemaTx) (hst : SameCatalog s t) (htu : SameCatalog t u) :
    SameCatalog s u := Eq.trans htu hst

section Reads

variable (fault : ℕ → Option String)

theorem moves_schemaSelect {α : Type} (run : Catalog → α) :
    StateExcept.Moves SameCatalog (schemaSelect fault run) :=
  fun _ _ _ h => (schemaSelect_ok h).2

theorem moves_fail {α : Type} (e : Error) :
    StateExcept.Moves SameCatalog (StateExcept.fail e : SchemaM α) :=
  fun _ _ _ h => absurd h StateExcept.not_fail_eq_ok

theorem moves_pure {α : Type} (a : α) : StateExcept.Moves SameCatalog (pure a : SchemaM α) :=
  StateExcept.Moves.pure SameCatalog.refl a

theorem moves_validateIndexShape (name : String) (expected : List String) :
    StateExcept.Moves SameCatalog (validateIndexShape fault name expected) := by
  refine (moves_schemaSelect fault _).bind SameCatalog.trans fun rows => ?_
  split
  · exact moves_fail _
  · split_ifs
    · exact moves_fail _
    · refine (moves_schemaSelect fault _).bind SameCatalog.trans fun xinfo => ?_
      split
      · exact moves_pure _
      · exact moves_fail _

theorem moves_validateOwnedPathIndex (object : SchemaObject) :
    StateExcept.Moves SameCatalog (validateOwnedPathIndex fault object) := by
  unfold validateOwnedPathIndex
  split_ifs
  · exact moves_fail _
  · exact (moves_validateIndexShape fault _ _).bind SameCatalog.trans fun _ => moves_pure _

theorem listPathIndexes_snd (cat : Catalog) : (listPathIndexes fault cat).2 = cat := by
  have hmoves : StateExcept.Moves SameCatalog (listPathIndexesTx fault) := by
    refine StateExcept.Moves.bind SameCatalog.trans
      ((moves_schemaSelect fault _).bind SameCatalog.trans fun _ => moves_pure _) fun objects => ?_
    exact (StateExcept.Moves.forEach SameCatalog.refl SameCatalog.trans
      (moves_validateOwnedPathIndex fault) objects).bind SameCatalog.trans fun _ => moves_pure _
  unfold listPathIndexes
  rcases schemaTransaction_cases (listPathIndexesTx fault) cat with
    ⟨names, t, t', hbody, rfl, hrun⟩ | ⟨e, hrun⟩
  · rw [hrun]
    exact hmoves t names t' hbody
  · rw [hrun]

end Reads

/-! ## Runs of calls -/

variable {calls : List ((ℕ → Option String) × IndexCall)}

theorem dropped?_of_ne {reply : Except Error Bool} (h : reply ≠ .ok true) :
    (IndexCall.drop suffix).dropped? (.dropped reply) = none := by
  cases reply with
  | error e => rfl
  | ok found =>
    cases found with
    | false => rfl
    | true => exact absurd rfl h

/-- Indexes of the same name are called for by the same suffix. -/
theorem OwnedPathIndex.sameName_of_sameName {s s' : String} {o o' : CatalogObject}
    (h : OwnedPathIndex s o) (h' : OwnedPathIndex s' o') (hs : Sqlite.SameName s s') :
    Sqlite.SameName o.name o'.name := by
  have hfull : Sqlite.SameName (publicIndexPrefix ++ s) (publicIndexPrefix ++ s') := by
    rw [Sqlite.SameName, strBytes_append, strBytes_append, List.map_append, List.map_append, hs]
  exact (h.sameName.trans hfull).trans h'.sameName.symm

theorem mem_of_forall₂ {s : String} : ∀ {suffixes : List String} {objects : List CatalogObject},
    List.Forall₂ OwnedPathIndex suffixes objects → s ∈ suffixes → ∃ o ∈ objects, OwnedPathIndex s o
  | _, _, .cons howned hrest, hs => by
    rcases List.mem_cons.mp hs with rfl | hs
    · exact ⟨_, List.mem_cons_self, howned⟩
    · obtain ⟨o, ho, howned⟩ := mem_of_forall₂ hrest hs
      exact ⟨o, List.mem_cons_of_mem _ ho, howned⟩

/-- Calls in any order and with any faults keep the schema one that opens. It loses a path index
for each drop that says so and nothing else, and no two drops say so of one name. -/
theorem recognized_of_calls (h : Recognized physicalVersion version cat)
    (hsqlite : Sqlite.Consistent cat) (calls : List ((ℕ → Option String) × IndexCall)) :
    Recognized physicalVersion version (runCalls calls cat).2 ∧
      Sqlite.Consistent (runCalls calls cat).2 ∧
      (runCalls calls cat).2.objects.Sublist cat.objects ∧
      (∃ dropped, List.Forall₂ OwnedPathIndex (droppedSuffixes calls cat) dropped ∧
        cat.objects.Perm (dropped ++ (runCalls calls cat).2.objects)) ∧
      (droppedSuffixes calls cat).Pairwise fun s s' => ¬ Sqlite.SameName s s' := by
  induction calls generalizing cat with
  | nil => exact ⟨h, hsqlite, .refl _, ⟨[], .nil, .refl _⟩, .nil⟩
  | cons head calls ih =>
    obtain ⟨fault, call⟩ := head
    cases call with
    | list =>
      have hcat : ((IndexCall.list).run fault cat).2 = cat := listPathIndexes_snd fault cat
      have hrest := ih h hsqlite
      have hsuffixes : droppedSuffixes ((fault, .list) :: calls) cat = droppedSuffixes calls cat := by
        rw [droppedSuffixes, runCalls, hcat]
        rfl
      rw [hsuffixes, runCalls, hcat]
      exact hrest
    | drop suffix =>
      rcases dropPathIndex_cases fault suffix cat with
        ⟨o, before, after, hreply, hbefore, hafter, howned⟩ | ⟨hreply, hcat⟩
      · obtain ⟨h', hsqlite'⟩ := h.of_split hbefore hafter howned hsqlite
        obtain ⟨hrec, hcons, hsub, ⟨dropped, hdropped, hperm⟩, hdistinct⟩ := ih h' hsqlite'
        have hsuffixes : droppedSuffixes ((fault, .drop suffix) :: calls) cat =
            suffix :: droppedSuffixes calls (dropPathIndex fault suffix cat).2 := by
          rw [droppedSuffixes, runCalls, List.zip_cons_cons, List.filterMap_cons_some]
          · rfl
          · show (IndexCall.drop suffix).dropped? (.dropped (dropPathIndex fault suffix cat).1) = _
            rw [hreply]
            rfl
        refine ⟨hrec, hcons, hsub.trans ?_, ⟨o :: dropped, ?_, ?_⟩, ?_⟩
        · rw [hbefore, hafter]
          exact List.Sublist.append (List.Sublist.refl _) (List.sublist_cons_self o after)
        · rw [hsuffixes]
          exact .cons howned hdropped
        · rw [hbefore]
          exact List.perm_middle.trans ((hafter ▸ hperm).cons o)
        · rw [hsuffixes, List.pairwise_cons]
          refine ⟨fun s hs hsame => ?_, hdistinct⟩
          obtain ⟨o', ho', howned'⟩ := mem_of_forall₂ hdropped hs
          obtain ⟨shape, hkind, -⟩ := howned.shape
          obtain ⟨shape', hkind', -⟩ := howned'.shape
          have hmem : o' ∈ before ++ after :=
            hafter ▸ hperm.symm.subset (List.mem_append_left _ ho')
          exact hsqlite.not_sameName_of_split hbefore (by simp [hkind]) o' hmem (by simp [hkind'])
            (howned.sameName_of_sameName howned' hsame)
      · have hrest := ih h hsqlite
        have hsuffixes : droppedSuffixes ((fault, .drop suffix) :: calls) cat =
            droppedSuffixes calls cat := by
          rw [droppedSuffixes, runCalls, List.zip_cons_cons, List.filterMap_cons_none]
          · show _ = droppedSuffixes calls cat
            rw [droppedSuffixes]
            exact congrArg (fun cat => (calls.zip (runCalls calls cat).1).filterMap _) hcat
          · exact dropped?_of_ne hreply
        have hrun : (runCalls ((fault, .drop suffix) :: calls) cat).2 = (runCalls calls cat).2 :=
          congrArg (fun cat => (runCalls calls cat).2) hcat
        rw [hsuffixes, hrun]
        exact hrest

/-- Two path indexes in a database of the current version, as SQLite reports its schema. -/
def userCatalog : Catalog where
  objects :=
    let key (cid : ℕ) (name : String) : IndexColumn := ⟨.column cid name, false, some "BINARY"⟩
    let rowid : IndexColumn := ⟨.rowid, false, some "BINARY"⟩
    let pathIndex : IndexShape :=
      ⟨false, .createIndex, false, [key 1 "namespace", key 2 "path"], [rowid]⟩
    [⟨.table, "files", "files", some "CREATE TABLE files (…)"⟩,
      ⟨.table, "payloads", "payloads", some "CREATE TABLE payloads (…)"⟩,
      ⟨.table, "sqlite_sequence", "sqlite_sequence", some "CREATE TABLE sqlite_sequence(name,seq)"⟩,
      ⟨.index ⟨true, .uniqueConstraint, false, [key 1 "namespace", key 2 "path"], [rowid]⟩,
        "sqlite_autoindex_files_1", "files", none⟩,
      ⟨.index ⟨false, .createIndex, false, [key 1 "namespace", key 8 "last_used_us"], [rowid]⟩,
        "idx_files_use", "files", some "CREATE INDEX idx_files_use …"⟩,
      ⟨.index pathIndex, "lc_user_photos", "files", some "CREATE INDEX lc_user_photos …"⟩,
      ⟨.index pathIndex, "lc_user_Music", "files", some "CREATE INDEX lc_user_Music …"⟩]
  noNul := by decide

theorem recognized_userCatalog : Recognized 6 6 userCatalog :=
  ⟨by decide +kernel, by decide +kernel⟩

theorem consistent_userCatalog : Sqlite.Consistent userCatalog :=
  ⟨by decide +kernel, by decide +kernel⟩

theorem recognized_of_calls_userCatalog :
    (runCalls [(noFault, .drop "music"), (noFault, .list), (noFault, .drop "MUSIC")]
      userCatalog).2.objects.Sublist userCatalog.objects :=
  (recognized_of_calls recognized_userCatalog consistent_userCatalog _).2.2.1

/-! ## Dropping what is listed -/

/-- A drop of a path index by the name in the schema. -/
theorem drop_pathIndex (h : Recognized physicalVersion version cat)
    (hsqlite : Sqlite.Consistent cat) (ho : o ∈ cat.objects) (hname : o.name = publicIndexPrefix ++ suffix) :
    (dropPathIndex noFault suffix cat).1 = .ok true ∧ ∃ before after,
      cat.objects = before ++ o :: after ∧
      (dropPathIndex noFault suffix cat).2.objects = before ++ after ∧ OwnedPathIndex suffix o := by
  have hsame : Sqlite.SameName o.name (publicIndexPrefix ++ suffix) := hname ▸ .refl o.name
  have hreply : (dropPathIndex noFault suffix cat).1 = .ok true := by
    rw [dropPathIndex_of_recognized h hsqlite]
    exact congrArg _ (List.any_eq_true.mpr ⟨o, ho, decide_eq_true hsame⟩)
  refine ⟨hreply, ?_⟩
  rcases dropPathIndex_cases noFault suffix cat with
    ⟨p, before, after, -, hbefore, hafter, howned⟩ | ⟨hne, -⟩
  · have hp : p ∈ cat.objects := hbefore ▸ List.mem_append_right before List.mem_cons_self
    obtain rfl := Catalog.eq_of_named (h.named_eq hsqlite ho hsame) hp howned.sameName
    exact ⟨before, after, hbefore, hafter, howned⟩
  · exact absurd hreply hne

/-- The drops of a list's names, in some order. -/
def dropCalls (suffixes : List String) : List ((ℕ → Option String) × IndexCall) :=
  suffixes.map fun suffix => (noFault, .drop suffix)

theorem calls_drop_pathIndexes (suffixes : List String) (h : Recognized physicalVersion version cat)
    (hsqlite : Sqlite.Consistent cat)
    (hperm : (suffixes.map (publicIndexPrefix ++ ·)).Perm (cat.pathIndexes.map CatalogObject.name)) :
    (runCalls (dropCalls suffixes) cat).1 = suffixes.map (fun _ => .dropped (.ok true)) ∧
      (runCalls (dropCalls suffixes) cat).2.objects =
        cat.objects.filter (fun o => ¬publicIndexPrefix.toList <+: o.name.toList) ∧
      Recognized physicalVersion version (runCalls (dropCalls suffixes) cat).2 ∧
      Sqlite.Consistent (runCalls (dropCalls suffixes) cat).2 := by
  induction suffixes generalizing cat with
  | nil =>
    have hnone : cat.pathIndexes = [] := List.map_eq_nil_iff.mp hperm.nil_eq.symm
    refine ⟨rfl, (List.filter_eq_self.mpr fun o ho => ?_).symm, h, hsqlite⟩
    have hpublic := List.filter_eq_nil_iff.mp hnone o ho
    simpa using hpublic
  | cons suffix suffixes ih =>
    obtain ⟨o, ho, hname⟩ := List.mem_map.mp (hperm.subset List.mem_cons_self)
    obtain ⟨ho, hpublic⟩ := List.mem_filter.mp ho
    obtain ⟨hreply, before, after, hbefore, hafter, howned⟩ := drop_pathIndex h hsqlite ho hname
    obtain ⟨h', hsqlite'⟩ := h.of_split hbefore hafter howned hsqlite
    have hindexes : cat.pathIndexes.Perm (o :: (dropPathIndex noFault suffix cat).2.pathIndexes) := by
      rw [Catalog.pathIndexes, Catalog.pathIndexes, hbefore, hafter]
      refine (List.perm_middle.filter _).trans (List.Perm.of_eq ?_)
      exact (List.filter_cons ..).trans (if_pos hpublic)
    have hrest : (suffixes.map (publicIndexPrefix ++ ·)).Perm
        ((dropPathIndex noFault suffix cat).2.pathIndexes.map CatalogObject.name) := by
      have hcons := hperm.trans (hindexes.map CatalogObject.name)
      rw [List.map_cons, List.map_cons, hname] at hcons
      exact hcons.cons_inv
    obtain ⟨hreplies, hobjects, hend⟩ := ih h' hsqlite' hrest
    refine ⟨?_, ?_, hend⟩
    · show .dropped (dropPathIndex noFault suffix cat).1 ::
        (runCalls (dropCalls suffixes) (dropPathIndex noFault suffix cat).2).1 = _
      rw [hreply, hreplies]
      rfl
    · show (runCalls (dropCalls suffixes) (dropPathIndex noFault suffix cat).2).2.objects = _
      rw [hobjects, hafter, hbefore, List.filter_append, List.filter_append,
        List.filter_cons_of_neg (by simpa using hpublic)]

/-- Every name a list gives can be dropped, in any order. Then no path index is left, and nothing
else is lost. -/
theorem calls_drop_listed (h : Recognized physicalVersion version cat)
    (hsqlite : Sqlite.Consistent cat) {names suffixes : List String}
    (hlist : (listPathIndexes noFault cat).1 = .ok names)
    (hperm : (suffixes.map (publicIndexPrefix ++ ·)).Perm names) :
    (runCalls (dropCalls suffixes) cat).1 = suffixes.map (fun _ => .dropped (.ok true)) ∧
      (runCalls (dropCalls suffixes) cat).2.objects =
        cat.objects.filter (fun o => ¬publicIndexPrefix.toList <+: o.name.toList) ∧
      (listPathIndexes noFault (runCalls (dropCalls suffixes) cat).2).1 = .ok [] := by
  rw [listPathIndexes_of_recognized h hsqlite] at hlist
  obtain rfl := Except.ok.inj hlist
  obtain ⟨hreplies, hobjects, h', hsqlite'⟩ := calls_drop_pathIndexes suffixes h hsqlite
    (hperm.trans (sortBy_perm textKey _))
  refine ⟨hreplies, hobjects, ?_⟩
  have hnone : (runCalls (dropCalls suffixes) cat).2.pathIndexes = [] := by
    rw [Catalog.pathIndexes, hobjects, List.filter_filter]
    exact List.filter_eq_nil_iff.mpr fun o _ => by simp
  rw [listPathIndexes_of_recognized h' hsqlite', hnone]
  rfl

theorem calls_drop_listed_userCatalog :
    (listPathIndexes noFault (runCalls (dropCalls ["photos", "Music"]) userCatalog).2).1 = .ok [] := by
  have hlist : (listPathIndexes noFault userCatalog).1 = .ok ["lc_user_Music", "lc_user_photos"] := by
    decide +kernel
  exact (calls_drop_listed recognized_userCatalog consistent_userCatalog hlist (by decide)).2.2

end LocalCache
