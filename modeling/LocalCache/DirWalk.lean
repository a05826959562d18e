import LocalCache.GlobExpand
import LocalCache.Freshness
import Mathlib.Algebra.Order.BigOperators.Group.List
import Mathlib.Data.List.TakeWhile

/-!
# Walking a directory

`scan_dir_filtered` and `preload` walk a directory, as deep as the options allow, and keep the
files whose name passes the filters. `DirEntries` is what the operating system lists, in its order :
regular files, directories with what they list, whatever else there is (a symbolic link among it),
and failures. A walk stops at the first failure it meets, and at the first file whose name is not
text, before any filter may skip it.

A scan takes the files of a walk, and asks for the status of each, which may fail by itself.

Without the recursion a walk is a list of items with their depths, of which it visits those within
its limit (`walk_eq`). So filters of a walk only filter, and never hide or cause an error
(`walk_filters`), and a deeper walk finds all that a shallower one does (`walk_depth_mono`). The same
holds of scans, but for the statuses of files that are not asked for (`scan_filters`,
`scan_depth_mono`). A scan lists exactly the files in reach that have one of the extensions and a name
that the pattern stands for (`mem_scan_iff`). The names come first, so no extension is ever refused
(`extensionText_of_name`).
-/

namespace LocalCache

/-! ## What a directory lists -/

/-- The entries of a directory, up to the first failure. A link is `other`, whatever it leads to. -/
inductive DirEntries
  | done
  | failed (err : Error)
  | file (name : List UInt8) (rest : DirEntries)
  | dir (name : List UInt8) (entries : DirEntries) (rest : DirEntries)
  | other (name : List UInt8) (rest : DirEntries)

structure ScanOptions where
  recursive : Bool
  maxDepth : Option ℕ
  extensions : List String
  globPattern : Option String
  deriving DecidableEq, Repr

/-- `Path::join` with a name. -/
def joinName (dir : Path) (name : List UInt8) : Path :=
  if dir = [] ∨ dir.getLast? = some 47 then dir ++ name else dir ++ 47 :: name

/-- `Path::extension` of a path with this name : what follows the last dot, unless that is the first
byte. -/
def extension (name : List UInt8) : Option (List UInt8) :=
  let after := (name.reverse.takeWhile (· ≠ 46)).reverse
  if name = [46, 46] ∨ 46 ∉ name ∨ name.length = after.length + 1 then none else some after

/-! ## The walk -/

section Walk

/-- Enough fuel for every alternative. -/
def CompiledGlob.fuel (glob : CompiledGlob) (name : String) : ℕ :=
  (glob.alternatives.map fun tokens => Glob.matchFuel tokens name.toList).sum

/-- The glob is compiled before the walk, with fuel enough (`compile_ok_iff`). -/
def ScanOptions.compileGlob (opts : ScanOptions) : Except (Option Error) (Option CompiledGlob) :=
  match opts.globPattern with
  | none => .ok none
  | some pattern => (compile (2 * pattern.length + 1) pattern).map some

variable (lower : String → String)

/-- The text of a name, or the error of a path that is none. -/
def nameText (path : Path) (name : List UInt8) : Except Error String :=
  match fromUtf8 name with
  | some text => .ok text
  | none => .error (.invalidPath path)

/-- The extension the filter compares. -/
def extensionText (path : Path) (name : List UInt8) : Except Error String :=
  match extension name with
  | some ext => nameText path ext
  | none => .ok ""

/-- Whether a regular file passes the filters. Its name is checked before any of them. -/
def candidate (opts : ScanOptions) (glob : Option CompiledGlob) (path : Path) (name : List UInt8) :
    Except Error Bool := do
  let text ← nameText path name
  if !opts.extensions.isEmpty then
    let ext ← extensionText path name
    if !opts.extensions.any fun e => lower e = lower ext then return false
  match glob with
  | some pat => return pat.matches (pat.fuel text) text = some true
  | none => return true

/-- Whether a walk at this depth enters a directory. -/
def ScanOptions.canDescend (opts : ScanOptions) (depth : ℕ) : Bool :=
  opts.recursive && opts.maxDepth.all fun max => depth < max

/-- `walk_dir_filtered`. -/
def walk (opts : ScanOptions) (glob : Option CompiledGlob) (depth : ℕ) (dir : Path) :
    DirEntries → Except Error (List Path)
  | .done => .ok []
  | .failed err => .error err
  | .file name rest => do
    let kept ← candidate lower opts glob (joinName dir name) name
    let files ← walk opts glob depth dir rest
    return if kept then joinName dir name :: files else files
  | .dir name entries rest => do
    let sub ←
      if opts.canDescend depth then walk opts glob (depth + 1) (joinName dir name) entries else .ok []
    let files ← walk opts glob depth dir rest
    return sub ++ files
  | .other _ rest => walk opts glob depth dir rest

/-- The files of `scan_dir_filtered` on a directory, whose glob is compiled first. -/
def scanFiles (opts : ScanOptions) (dir : Path) (entries : DirEntries) :
    Except (Option Error) (List Path) := do
  let glob ← opts.compileGlob
  (walk lower opts glob 0 dir entries).mapError some

/-- The statuses of a scan's files, each read in a world of its own. -/
def scanStatuses {T : Type} (e : Engine) (src : Sources T) (ws : ℕ → World) (db : Db) :
    ℕ → List Path → Except Error (List (Path × CacheStatus))
  | _, [] => .ok []
  | k, path :: rest => do
    let status ← checkStatus e src (ws k) path db
    let more ← scanStatuses e src ws db (k + 1) rest
    return (path, status) :: more

/-- `scan_dir_filtered` on a directory. The status of a file is read in the world of the file. -/
def scanDirFiltered {T : Type} (e : Engine) (src : Sources T) (world : Path → World)
    (opts : ScanOptions) (dir : Path) (entries : DirEntries) (db : Db) :
    Except (Option Error) (List (Path × CacheStatus)) := do
  let files ← scanFiles lower opts dir entries
  (scanStatuses e src (fun k => world (files.getD k [])) db 0 files).mapError some

end Walk

/-! ## The walk without the recursion -/

/-- What a walk meets : a regular file, or a failure, at a depth. -/
inductive WalkItem
  | file (path : Path) (name : List UInt8) (depth : ℕ)
  | fails (err : Error) (depth : ℕ)

def WalkItem.depth : WalkItem → ℕ
  | .file _ _ depth | .fails _ depth => depth

/-- All there is to meet, in the order of a walk that goes down everywhere. -/
def items (depth : ℕ) (dir : Path) : DirEntries → List WalkItem
  | .done => []
  | .failed err => [.fails err depth]
  | .file name rest =>
    (if (fromUtf8 name).isSome then .file (joinName dir name) name depth
      else .fails (.invalidPath (joinName dir name)) depth) :: items depth dir rest
  | .dir name entries rest => items (depth + 1) (joinName dir name) entries ++ items depth dir rest
  | .other _ rest => items depth dir rest

/-- A walk from depth 0 comes to this depth. -/
def ScanOptions.reaches (opts : ScanOptions) (depth : ℕ) : Bool :=
  depth = 0 || (opts.recursive && opts.maxDepth.all fun max => depth ≤ max)

/-- The files before the first failure that have an accepted name. -/
def collect (accept : List UInt8 → Bool) : List WalkItem → Except Error (List Path)
  | [] => .ok []
  | .fails err _ :: _ => .error err
  | .file path name _ :: rest =>
    (collect accept rest).map fun files => if accept name then path :: files else files

section Filters

variable (lower : String → String) (opts : ScanOptions) (glob : Option CompiledGlob)

/-- The text of the extension, empty if there is none. -/
def extensionOf (name : List UInt8) : String := ((extension name).bind fromUtf8).getD ""

/-- The filters on a name that is text. -/
def accepts (name : List UInt8) : Bool :=
  (opts.extensions.isEmpty || opts.extensions.any fun e => lower e = lower (extensionOf name)) &&
    glob.all fun pat =>
      pat.matches (pat.fuel ((fromUtf8 name).getD "")) ((fromUtf8 name).getD "") = some true

variable {lower opts glob} {path dir : Path} {name : List UInt8} {depth : ℕ}

theorem extension_eq_some {ext : List UInt8} (h : extension name = some ext) :
    ∃ before, name = before ++ 46 :: ext := by
  unfold extension at h
  dsimp only at h
  split_ifs at h with hnone
  have hdot : 46 ∈ name := by
    by_contra hno
    exact hnone (Or.inr (Or.inl hno))
  obtain rfl := Option.some.inj h
  -- the reverse of the name is what follows the last dot, the dot, and the rest
  have hsplit := List.takeWhile_append_dropWhile (p := (· ≠ (46 : UInt8))) (l := name.reverse)
  cases hrest : name.reverse.dropWhile (· ≠ (46 : UInt8)) with
  | nil =>
    have hall := List.dropWhile_eq_nil_iff.mp hrest 46 (List.mem_reverse.mpr hdot)
    simp at hall
  | cons b rest =>
    have hb : b = 46 := by
      have hhead := List.head?_dropWhile_not (· ≠ (46 : UInt8)) name.reverse
      rw [hrest] at hhead
      simpa using hhead
    rw [hrest, hb] at hsplit
    generalize name.reverse.takeWhile (· ≠ (46 : UInt8)) = after at hsplit ⊢
    refine ⟨rest.reverse, ?_⟩
    calc
      name = name.reverse.reverse := (List.reverse_reverse name).symm
      _ = (after ++ 46 :: rest).reverse := by rw [hsplit]
      _ = rest.reverse ++ 46 :: after.reverse := by simp

/-- The extension of a name that is text is text. -/
theorem extensionText_of_name {text : String} (h : fromUtf8 name = some text) (path : Path) :
    extensionText path name = .ok (extensionOf name) := by
  unfold extensionText extensionOf
  cases hext : extension name with
  | none => rfl
  | some ext =>
    obtain ⟨before, hsplit⟩ := extension_eq_some hext
    have hbytes : strBytes text = before ++ 46 :: ext := (strBytes_of_fromUtf8 h).trans hsplit
    obtain ⟨t, ht⟩ := fromUtf8_after (by decide) hbytes
    simp [nameText, ht]

theorem candidate_eq (lower : String → String) (opts : ScanOptions) (glob : Option CompiledGlob)
    (path : Path) (name : List UInt8) : candidate lower opts glob path name =
      if (fromUtf8 name).isSome then .ok (accepts lower opts glob name)
      else .error (.invalidPath path) := by
  unfold candidate nameText
  cases htext : fromUtf8 name with
  | none => rfl
  | some text =>
    simp only [bind, Except.bind, pure, Except.pure, extensionText_of_name htext, Option.isSome_some,
      if_true, accepts, htext, Option.getD_some]
    cases hempty : opts.extensions.isEmpty with
    | true => cases glob <;> simp
    | false =>
      cases hany : opts.extensions.any fun e => lower e = lower (extensionOf name) with
      | true => cases glob <;> simp
      | false => simp

theorem depth_le_of_mem_items {item : WalkItem} : ∀ {entries : DirEntries} {depth : ℕ} {dir : Path},
    item ∈ items depth dir entries → depth ≤ item.depth
  | .done, _, _, h => by simp [items] at h
  | .failed err, depth, _, h => by
    rw [items, List.mem_singleton] at h
    rw [h]
    exact le_rfl
  | .file name rest, depth, dir, h => by
    rcases List.mem_cons.mp h with h | h
    · rw [h]
      split_ifs <;> exact le_rfl
    · exact depth_le_of_mem_items h
  | .dir name entries rest, depth, dir, h => by
    rcases List.mem_append.mp h with h | h
    · exact (Nat.le_succ depth).trans (depth_le_of_mem_items h)
    · exact depth_le_of_mem_items h
  | .other _ rest, _, _, h => by
    rw [items] at h
    exact depth_le_of_mem_items h

theorem ScanOptions.reaches_iff {d : ℕ} : opts.reaches d = true ↔
    d = 0 ∨ opts.recursive = true ∧ ∀ max, opts.maxDepth = some max → d ≤ max := by
  unfold reaches
  cases opts.maxDepth <;> simp

theorem ScanOptions.reaches_of_le {d d' : ℕ} (h : opts.reaches d' = true) (hle : d ≤ d') :
    opts.reaches d = true := by
  rw [reaches_iff] at h ⊢
  rcases h with rfl | ⟨hrecursive, hmax⟩
  · exact Or.inl (Nat.le_zero.mp hle)
  · exact Or.inr ⟨hrecursive, fun max hm => hle.trans (hmax max hm)⟩

theorem ScanOptions.canDescend_eq (opts : ScanOptions) (depth : ℕ) :
    opts.canDescend depth = opts.reaches (depth + 1) := by
  unfold canDescend reaches
  cases opts.maxDepth <;> rfl

theorem collect_append (accept : List UInt8 → Bool) : ∀ l l' : List WalkItem,
    collect accept (l ++ l') =
      (collect accept l).bind fun files => (collect accept l').map fun files' => files ++ files'
  | [], l' => by cases h : collect accept l' <;> simp [collect, h, Except.bind, Except.map]
  | .fails err _ :: l, l' => rfl
  | .file path name _ :: l, l' => by
    rw [List.cons_append, collect, collect_append accept l l', collect]
    cases collect accept l with
    | error err => rfl
    | ok files =>
      cases collect accept l' with
      | error err => rfl
      | ok files' =>
        simp only [Except.bind, Except.map]
        split_ifs <;> rfl

/-- A walk visits the items within its limit, in order, and stops at the first failure. -/
theorem walk_eq (lower : String → String) (opts : ScanOptions) (glob : Option CompiledGlob) :
    ∀ (entries : DirEntries) {depth : ℕ} {dir : Path}, opts.reaches depth = true →
      walk lower opts glob depth dir entries = collect (accepts lower opts glob)
        ((items depth dir entries).filter fun item => opts.reaches item.depth)
  | .done, _, _, _ => rfl
  | .failed err, depth, dir, hdepth => by
    rw [walk, items, List.filter_cons_of_pos (by exact hdepth)]
    rfl
  | .file name rest, depth, dir, hdepth => by
    rw [walk, candidate_eq, walk_eq lower opts glob rest hdepth, items]
    split_ifs with htext
    · rw [List.filter_cons_of_pos (by exact hdepth), collect]
      cases collect (accepts lower opts glob)
        ((items depth dir rest).filter fun item => opts.reaches item.depth) <;> rfl
    · rw [List.filter_cons_of_pos (by exact hdepth)]
      rfl
  | .dir name entries rest, depth, dir, hdepth => by
    rw [walk, walk_eq lower opts glob rest hdepth, items, List.filter_append, collect_append,
      ScanOptions.canDescend_eq]
    cases hdown : opts.reaches (depth + 1) with
    | true =>
      rw [if_pos rfl, walk_eq lower opts glob entries hdown]
      cases collect (accepts lower opts glob) ((items (depth + 1) (joinName dir name) entries).filter
        fun item => opts.reaches item.depth) with
      | error err => rfl
      | ok files =>
        cases collect (accepts lower opts glob)
          ((items depth dir rest).filter fun item => opts.reaches item.depth) <;> rfl
    | false =>
      have hnone : (items (depth + 1) (joinName dir name) entries).filter
          (fun item => opts.reaches item.depth) = [] := by
        refine List.filter_eq_nil_iff.mpr fun item hitem hreach => ?_
        rw [opts.reaches_of_le hreach (depth_le_of_mem_items hitem)] at hdown
        cases hdown
      rw [hnone, if_neg (by simp)]
      cases collect (accepts lower opts glob)
        ((items depth dir rest).filter fun item => opts.reaches item.depth) <;> rfl
  | .other _ rest, depth, dir, hdepth => by
    rw [walk, walk_eq lower opts glob rest hdepth, items]

end Filters

/-! ## What a walk finds -/

/-- A regular file under a directory that is walked at a depth : its own depth, path and name. -/
inductive HasFile : ℕ → Path → DirEntries → ℕ → Path → List UInt8 → Prop
  | file {depth : ℕ} {dir : Path} {name : List UInt8} {rest : DirEntries} :
    HasFile depth dir (.file name rest) depth (joinName dir name) name
  | afterFile {depth d : ℕ} {dir path : Path} {n name : List UInt8} {rest : DirEntries}
      (h : HasFile depth dir rest d path name) : HasFile depth dir (.file n rest) d path name
  | inDir {depth d : ℕ} {dir path : Path} {n name : List UInt8} {entries rest : DirEntries}
      (h : HasFile (depth + 1) (joinName dir n) entries d path name) :
      HasFile depth dir (.dir n entries rest) d path name
  | afterDir {depth d : ℕ} {dir path : Path} {n name : List UInt8} {entries rest : DirEntries}
      (h : HasFile depth dir rest d path name) : HasFile depth dir (.dir n entries rest) d path name
  | afterOther {depth d : ℕ} {dir path : Path} {n name : List UInt8} {rest : DirEntries}
      (h : HasFile depth dir rest d path name) : HasFile depth dir (.other n rest) d path name

/-- The failure an item is. -/
def WalkItem.error? : WalkItem → Option Error
  | .file _ _ _ => none
  | .fails err _ => some err

/-- The path of a file with an accepted name. -/
def WalkItem.path? (accept : List UInt8 → Bool) : WalkItem → Option Path
  | .file path name _ => if accept name then some path else none
  | .fails _ _ => none

section Finding

open Glob

variable {lower : String → String} {opts opts' : ScanOptions} {glob : Option CompiledGlob}

/-- A collection is the first failure, or the accepted files. -/
theorem collect_eq (accept : List UInt8 → Bool) : ∀ l : List WalkItem,
    collect accept l = match l.findSome? WalkItem.error? with
      | some err => .error err
      | none => .ok (l.filterMap (WalkItem.path? accept))
  | [] => rfl
  | .fails err _ :: l => rfl
  | .file path name depth :: l => by
    have hnone : WalkItem.error? (.file path name depth) = none := rfl
    rw [collect, collect_eq accept l, List.findSome?_cons, hnone, List.filterMap_cons, WalkItem.path?]
    cases l.findSome? WalkItem.error? with
    | some err => rfl
    | none => split_ifs <;> simp [Except.map, *]

theorem filterMap_path?_sublist {accept accept' : List UInt8 → Bool}
    (h : ∀ name, accept name = true → accept' name = true) : ∀ l : List WalkItem,
      (l.filterMap (WalkItem.path? accept)).Sublist (l.filterMap (WalkItem.path? accept'))
  | [] => .slnil
  | .fails _ _ :: l => filterMap_path?_sublist h l
  | .file path name _ :: l => by
    have hrest := filterMap_path?_sublist h l
    rw [List.filterMap_cons, List.filterMap_cons, WalkItem.path?, WalkItem.path?]
    split_ifs with hname hname'
    · exact hrest.cons_cons path
    · exact absurd (h name hname) hname'
    · exact hrest.cons path
    · exact hrest

/-- Filters only filter : with the same recursion, and filters that accept less, a walk fails as
the other does, with the same error, or finds some of its files, in their order. -/
theorem walk_filters {glob' : Option CompiledGlob} (hrecursive : opts.recursive = opts'.recursive)
    (hmax : opts.maxDepth = opts'.maxDepth)
    (hfilters : ∀ name, accepts lower opts glob name = true → accepts lower opts' glob' name = true)
    (dir : Path) (entries : DirEntries) :
    (∃ err, walk lower opts glob 0 dir entries = .error err ∧
      walk lower opts' glob' 0 dir entries = .error err) ∨
    ∃ files files', walk lower opts glob 0 dir entries = .ok files ∧
      walk lower opts' glob' 0 dir entries = .ok files' ∧ files.Sublist files' := by
  have hreaches : opts.reaches = opts'.reaches := by
    funext d
    rw [ScanOptions.reaches, ScanOptions.reaches, hrecursive, hmax]
  rw [walk_eq lower opts glob entries rfl, walk_eq lower opts' glob' entries rfl, hreaches,
    collect_eq, collect_eq]
  cases ((items 0 dir entries).filter fun item => opts'.reaches item.depth).findSome?
      WalkItem.error? with
  | some err => exact Or.inl ⟨err, rfl, rfl⟩
  | none => exact Or.inr ⟨_, _, rfl, rfl, filterMap_path?_sublist hfilters _⟩

/-- A walk that goes less deep finds some of the files, in their order, and fails only if the deeper
one does. -/
theorem walk_depth_mono (hreach : ∀ d, opts.reaches d = true → opts'.reaches d = true)
    (hextensions : opts.extensions = opts'.extensions) {dir : Path} {entries : DirEntries}
    {files' : List Path} (hwalk : walk lower opts' glob 0 dir entries = .ok files') :
    ∃ files, walk lower opts glob 0 dir entries = .ok files ∧ files.Sublist files' := by
  have haccepts : accepts lower opts glob = accepts lower opts' glob := by
    funext name
    rw [accepts, accepts, hextensions]
  have hsub : ((items 0 dir entries).filter fun item => opts.reaches item.depth).Sublist
      ((items 0 dir entries).filter fun item => opts'.reaches item.depth) :=
    List.monotone_filter_right _ fun item => hreach item.depth
  rw [walk_eq lower opts' glob entries rfl, collect_eq] at hwalk
  rw [walk_eq lower opts glob entries rfl, collect_eq, haccepts]
  have hclean : ((items 0 dir entries).filter fun item => opts'.reaches item.depth).findSome?
      WalkItem.error? = none := by
    cases h : ((items 0 dir entries).filter fun item => opts'.reaches item.depth).findSome?
      WalkItem.error? with
    | none => rfl
    | some err =>
      rw [h] at hwalk
      cases hwalk
  rw [hclean] at hwalk
  obtain rfl := Except.ok.inj hwalk
  have hclean' : ((items 0 dir entries).filter fun item => opts.reaches item.depth).findSome?
      WalkItem.error? = none :=
    List.findSome?_eq_none_iff.mpr fun item hitem =>
      List.findSome?_eq_none_iff.mp hclean item (hsub.subset hitem)
  rw [hclean']
  exact ⟨_, rfl, hsub.filterMap _⟩

theorem mem_items_file {d : ℕ} {path : Path} {name : List UInt8} : ∀ {entries : DirEntries}
    {depth : ℕ} {dir : Path}, .file path name d ∈ items depth dir entries ↔
      HasFile depth dir entries d path name ∧ (fromUtf8 name).isSome = true
  | .done, _, _ => ⟨fun h => by simp [items] at h, fun h => by cases h.1⟩
  | .failed err, _, _ => ⟨fun h => by simp [items] at h, fun h => by cases h.1⟩
  | .file n rest, depth, dir => by
    rw [items, List.mem_cons, mem_items_file]
    constructor
    · rintro (h | ⟨h, htext⟩)
      · split_ifs at h with htext
        obtain ⟨rfl, rfl, rfl⟩ := WalkItem.file.inj h
        exact ⟨.file, htext⟩
      · exact ⟨.afterFile h, htext⟩
    · rintro ⟨h, htext⟩
      cases h with
      | file => exact Or.inl (if_pos htext).symm
      | afterFile h => exact Or.inr ⟨h, htext⟩
  | .dir n entries rest, depth, dir => by
    rw [items, List.mem_append, mem_items_file, mem_items_file]
    constructor
    · rintro (⟨h, htext⟩ | ⟨h, htext⟩)
      · exact ⟨.inDir h, htext⟩
      · exact ⟨.afterDir h, htext⟩
    · rintro ⟨h, htext⟩
      cases h with
      | inDir h => exact Or.inl ⟨h, htext⟩
      | afterDir h => exact Or.inr ⟨h, htext⟩
  | .other n rest, depth, dir => by
    rw [items, mem_items_file]
    constructor
    · exact fun h => ⟨.afterOther h.1, h.2⟩
    · rintro ⟨h, htext⟩
      cases h with
      | afterOther h => exact ⟨h, htext⟩

/-- The matcher of a scan accepts the words the pattern stands for. -/
theorem matches_of_compile {pattern : String} {pat : CompiledGlob}
    (hcompile : compile (2 * pattern.length + 1) pattern = .ok pat) (text : String) :
    pat.matches (pat.fuel text) text = some true ↔ text.toList ∈ patternLanguage pattern := by
  have hspec : ∀ rounds, (∀ tokens ∈ pat.alternatives, Glob.matchFuel tokens text.toList ≤ rounds) →
      (pat.matches rounds text = some true ↔
        text.toList ∈ alternativesLanguage pat.alternatives) := fun rounds hrounds => by
    obtain ⟨matched, hmatched, hiff⟩ := Glob.matchesAny_spec hrounds
    rw [CompiledGlob.matches, hmatched, ← hiff, Option.some.injEq]
  -- both specifications at once, with fuel enough for both
  have hfuel : ∀ tokens ∈ pat.alternatives, Glob.matchFuel tokens text.toList ≤ pat.fuel text :=
    fun tokens htokens => List.single_le_sum (fun _ _ => Nat.zero_le _) _ (List.mem_map_of_mem htokens)
  have hrounds : text.length * (pattern.length + 1) + pattern.length + 1 ≤
      pat.fuel text + (text.length * (pattern.length + 1) + pattern.length + 1) := by omega
  obtain ⟨matched, hmatched, hiff⟩ := matches_iff_mem_language le_rfl hcompile text hrounds
  rw [hspec _ hfuel, ← hspec _ fun tokens htokens => (hfuel tokens htokens).trans (Nat.le_add_right _ _),
    hmatched, ← hiff, Option.some.injEq]

/-- A scan lists exactly the regular files in its reach, whose name has one of the extensions, if any
is given, and is a word of the pattern, if one is given. -/
theorem mem_scan_iff {dir : Path} {entries : DirEntries} {files : List Path}
    (hscan : scanFiles lower opts dir entries = .ok files) (path : Path) :
    path ∈ files ↔ ∃ name text d, HasFile 0 dir entries d path name ∧ fromUtf8 name = some text ∧
      (d = 0 ∨ opts.recursive = true ∧ ∀ max, opts.maxDepth = some max → d ≤ max) ∧
      (opts.extensions = [] ∨ ∃ e ∈ opts.extensions, lower e = lower (extensionOf name)) ∧
      ∀ pattern, opts.globPattern = some pattern → text.toList ∈ patternLanguage pattern := by
  unfold scanFiles at hscan
  cases hglob : opts.compileGlob with
  | error err =>
    rw [hglob] at hscan
    cases hscan
  | ok glob =>
    rw [hglob] at hscan
    have hwalk : walk lower opts glob 0 dir entries = .ok files := by
      cases hwalk : walk lower opts glob 0 dir entries with
      | error err =>
        simp only [hwalk, bind, Except.bind] at hscan
        cases hscan
      | ok found =>
        simp only [hwalk, bind, Except.bind] at hscan
        rw [← Except.ok.inj hscan]
    have hmatches : ∀ text : String, (glob.all fun pat => pat.matches (pat.fuel text) text = some true) =
        true ↔ ∀ pattern, opts.globPattern = some pattern → text.toList ∈ patternLanguage pattern := by
      intro text
      unfold ScanOptions.compileGlob at hglob
      cases hpattern : opts.globPattern with
      | none =>
        rw [hpattern] at hglob
        obtain rfl := Except.ok.inj hglob
        simp
      | some pattern =>
        rw [hpattern] at hglob
        dsimp only at hglob
        cases hcompile : compile (2 * pattern.length + 1) pattern with
        | error err =>
          rw [hcompile] at hglob
          cases hglob
        | ok pat =>
          rw [hcompile] at hglob
          obtain rfl := Except.ok.inj hglob
          simp [matches_of_compile hcompile]
    rw [walk_eq lower opts glob entries rfl, collect_eq] at hwalk
    split at hwalk
    · cases hwalk
    · rw [← Except.ok.inj hwalk, List.mem_filterMap]
      constructor
      · rintro ⟨item, hitem, hpath⟩
        obtain ⟨hmem, hreach⟩ := List.mem_filter.mp hitem
        cases item with
        | fails err d => cases hpath
        | file path' name d =>
          rw [WalkItem.path?] at hpath
          split_ifs at hpath with haccept
          obtain rfl := Option.some.inj hpath
          obtain ⟨hfile, htext⟩ := mem_items_file.mp hmem
          obtain ⟨text, htext⟩ := Option.isSome_iff_exists.mp htext
          rw [accepts, Bool.and_eq_true, htext, Option.getD_some, hmatches] at haccept
          refine ⟨name, text, d, hfile, htext, ?_, ?_, haccept.2⟩
          · exact ScanOptions.reaches_iff.mp hreach
          · simpa using haccept.1
      · rintro ⟨name, text, d, hfile, htext, hdepth, hext, hpattern⟩
        refine ⟨.file path name d, List.mem_filter.mpr
          ⟨mem_items_file.mpr ⟨hfile, by simp [htext]⟩, ?_⟩, ?_⟩
        · exact ScanOptions.reaches_iff.mpr hdepth
        · rw [WalkItem.path?, if_pos]
          rw [accepts, Bool.and_eq_true, htext, Option.getD_some, hmatches]
          exact ⟨by simpa using hext, hpattern⟩

end Finding

/-! ## The scan -/

section Scanning

variable {T : Type} {e : Engine} {src : Sources T} {lower : String → String} {opts opts' : ScanOptions}
  {glob glob' : Option CompiledGlob} {world : Path → World} {ws ws' : ℕ → World} {db : Db}

theorem scanStatuses_cons_eq_ok {path : Path} {rest : List Path} {k : ℕ}
    {found : List (Path × CacheStatus)} : scanStatuses e src ws db k (path :: rest) = .ok found ↔
      ∃ status more, checkStatus e src (ws k) path db = .ok status ∧
        scanStatuses e src ws db (k + 1) rest = .ok more ∧ (path, status) :: more = found := by
  rw [scanStatuses]
  cases checkStatus e src (ws k) path db with
  | error err => simp [bind, Except.bind]
  | ok status =>
    cases scanStatuses e src ws db (k + 1) rest with
    | error err => simp [bind, Except.bind]
    | ok more => simp [bind, Except.bind, pure, Except.pure]

/-- From the `k`th on, the worlds are those of these files. -/
def WorldsOf (world : Path → World) (ws : ℕ → World) (k : ℕ) (files : List Path) : Prop :=
  ∀ i path, files[i]? = some path → ws (k + i) = world path

theorem WorldsOf.head {path : Path} {rest : List Path} {k : ℕ}
    (h : WorldsOf world ws k (path :: rest)) : ws k = world path := h 0 path rfl

theorem WorldsOf.tail {path : Path} {rest : List Path} {k : ℕ}
    (h : WorldsOf world ws k (path :: rest)) : WorldsOf world ws (k + 1) rest := fun i p hp => by
  rw [show k + 1 + i = k + (i + 1) by omega]
  exact h (i + 1) p hp

theorem worldsOf_getD (world : Path → World) (files : List Path) :
    WorldsOf world (fun k => world (files.getD k [])) 0 files := fun i path hpath => by
  show world (files.getD (0 + i) []) = world path
  rw [Nat.zero_add, List.getD_eq_getElem?_getD, hpath, Option.getD_some]

/-- If the files of a list have their statuses, so has a part of them the same. -/
theorem scanStatuses_sublist {files files' : List Path} (h : files.Sublist files') :
    ∀ {k k' : ℕ} {found' : List (Path × CacheStatus)}, WorldsOf world ws k files →
      WorldsOf world ws' k' files' → scanStatuses e src ws' db k' files' = .ok found' →
        ∃ found, scanStatuses e src ws db k files = .ok found ∧ found.Sublist found' := by
  induction h with
  | slnil =>
    intro k k' found' _ _ hfound'
    exact ⟨[], rfl, List.nil_sublist _⟩
  | cons path _ ih =>
    intro k k' found' hws hws' hfound'
    obtain ⟨status, more, -, hmore, rfl⟩ := scanStatuses_cons_eq_ok.mp hfound'
    obtain ⟨found, hfound, hsub⟩ := ih hws hws'.tail hmore
    exact ⟨found, hfound, hsub.cons _⟩
  | cons_cons path _ ih =>
    intro k k' found' hws hws' hfound'
    obtain ⟨status, more, hstatus, hmore, rfl⟩ := scanStatuses_cons_eq_ok.mp hfound'
    obtain ⟨found, hfound, hsub⟩ := ih hws.tail hws'.tail hmore
    rw [hws'.head, ← hws.head] at hstatus
    exact ⟨(path, status) :: found,
      scanStatuses_cons_eq_ok.mpr ⟨status, found, hstatus, hfound, rfl⟩, hsub.cons_cons _⟩

/-- A scan is its walk, and the statuses of what that found. -/
theorem scanDirFiltered_eq (lower : String → String) (e : Engine) (src : Sources T)
    (world : Path → World) (hglob : opts.compileGlob = .ok glob) (dir : Path) (entries : DirEntries)
    (db : Db) :
    scanDirFiltered lower e src world opts dir entries db =
      match walk lower opts glob 0 dir entries with
      | .error err => .error (some err)
      | .ok files => (scanStatuses e src (fun k => world (files.getD k [])) db 0 files).mapError some := by
  rw [scanDirFiltered, scanFiles, hglob]
  simp only [bind, Except.bind]
  cases walk lower opts glob 0 dir entries <;> rfl

theorem scanStatuses_of_scan {dir : Path} {entries : DirEntries} {found : List (Path × CacheStatus)}
    (hglob : opts.compileGlob = .ok glob)
    (hscan : scanDirFiltered lower e src world opts dir entries db = .ok found) :
    ∃ files, walk lower opts glob 0 dir entries = .ok files ∧
      scanStatuses e src (fun k => world (files.getD k [])) db 0 files = .ok found := by
  rw [scanDirFiltered_eq lower e src world hglob] at hscan
  cases hwalk : walk lower opts glob 0 dir entries with
  | error err =>
    rw [hwalk] at hscan
    cases hscan
  | ok files =>
    rw [hwalk] at hscan
    dsimp only at hscan
    refine ⟨files, rfl, ?_⟩
    cases hstatuses : scanStatuses e src (fun k => world (files.getD k [])) db 0 files with
    | error err =>
      rw [hstatuses] at hscan
      cases hscan
    | ok found =>
      rw [hstatuses] at hscan
      exact congrArg Except.ok (Except.ok.inj hscan)

/-- A scan whose walk finds some of the files of a scan that succeeds. -/
theorem scan_of_sublist {dir : Path} {entries : DirEntries} {files files' : List Path}
    {found' : List (Path × CacheStatus)} (hglob : opts.compileGlob = .ok glob)
    (hwalk : walk lower opts glob 0 dir entries = .ok files) (hsub : files.Sublist files')
    (hstatuses : scanStatuses e src (fun k => world (files'.getD k [])) db 0 files' = .ok found') :
    ∃ found, scanDirFiltered lower e src world opts dir entries db = .ok found ∧
      found.Sublist found' := by
  obtain ⟨found, hfound, hsub'⟩ :=
    scanStatuses_sublist hsub (worldsOf_getD world files) (worldsOf_getD world files') hstatuses
  refine ⟨found, ?_, hsub'⟩
  rw [scanDirFiltered_eq lower e src world hglob, hwalk]
  dsimp only
  rw [hfound]
  rfl

/-- A scan with the same reach, and filters that accept less, succeeds if the other does, and lists
some of its files, in their order and with their statuses. A walk that fails fails for both. -/
theorem scan_filters (hglob : opts.compileGlob = .ok glob) (hglob' : opts'.compileGlob = .ok glob')
    (hrecursive : opts.recursive = opts'.recursive) (hmax : opts.maxDepth = opts'.maxDepth)
    (hfilters : ∀ name, accepts lower opts glob name = true → accepts lower opts' glob' name = true)
    (dir : Path) (entries : DirEntries) :
    (∀ found', scanDirFiltered lower e src world opts' dir entries db = .ok found' →
      ∃ found, scanDirFiltered lower e src world opts dir entries db = .ok found ∧
        found.Sublist found') ∧
    ∀ err, walk lower opts' glob' 0 dir entries = .error err ∨
        walk lower opts glob 0 dir entries = .error err →
      scanDirFiltered lower e src world opts dir entries db = .error (some err) ∧
        scanDirFiltered lower e src world opts' dir entries db = .error (some err) := by
  rcases walk_filters hrecursive hmax hfilters dir entries with
    ⟨err, hwalk, hwalk'⟩ | ⟨files, files', hwalk, hwalk', hsub⟩
  · have hscan := scanDirFiltered_eq lower e src world hglob dir entries db
    have hscan' := scanDirFiltered_eq lower e src world hglob' dir entries db
    rw [hwalk] at hscan
    rw [hwalk'] at hscan'
    refine ⟨fun found' hfound' => ?_, fun err' herr' => ?_⟩
    · rw [hscan'] at hfound'
      cases hfound'
    · obtain rfl : err = err' := by
        rw [hwalk, hwalk', or_self] at herr'
        exact Except.error.inj herr'
      exact ⟨hscan, hscan'⟩
  · refine ⟨fun found' hfound' => ?_, fun err herr => ?_⟩
    · obtain ⟨files'', hwalk'', hstatuses⟩ := scanStatuses_of_scan hglob' hfound'
      rw [hwalk'] at hwalk''
      obtain rfl := Except.ok.inj hwalk''
      exact scan_of_sublist hglob hwalk hsub hstatuses
    · rw [hwalk, hwalk'] at herr
      rcases herr with herr | herr <;> cases herr

/-- A scan that goes less deep succeeds if the deeper one does, and lists some of its files, in their
order and with their statuses. -/
theorem scan_depth_mono (hreach : ∀ d, opts.reaches d = true → opts'.reaches d = true)
    (hextensions : opts.extensions = opts'.extensions) (hpattern : opts.globPattern = opts'.globPattern)
    {dir : Path} {entries : DirEntries} {found' : List (Path × CacheStatus)}
    (hscan : scanDirFiltered lower e src world opts' dir entries db = .ok found') :
    ∃ found, scanDirFiltered lower e src world opts dir entries db = .ok found ∧
      found.Sublist found' := by
  have hsame : opts.compileGlob = opts'.compileGlob := by
    rw [ScanOptions.compileGlob, hpattern, ScanOptions.compileGlob]
  cases hglob : opts'.compileGlob with
  | error err =>
    rw [scanDirFiltered, scanFiles, hglob] at hscan
    cases hscan
  | ok glob =>
    obtain ⟨files', hwalk', hstatuses⟩ := scanStatuses_of_scan hglob hscan
    obtain ⟨files, hwalk, hsub⟩ := walk_depth_mono hreach hextensions hwalk'
    exact scan_of_sublist (hsame.trans hglob) hwalk hsub hstatuses

end Scanning

/-! ## A directory with one below it -/

section Samples

/-- `a.txt`, a link, and a directory `d` with `b.TXT` and `c`. -/
def twoLevels : DirEntries :=
  .file [97, 46, 116, 120, 116] (.other [108]
    (.dir [100] (.file [98, 46, 84, 88, 84] (.file [99] .done)) .done))

def allFiles : ScanOptions := ⟨true, none, [], none⟩

/-- Text files whose name is one letter and an extension. -/
def textFiles : ScanOptions := ⟨true, none, ["txt"], some "?.*"⟩

/-- `str::to_lowercase`, for ASCII. -/
def lowerAscii (s : String) : String := String.ofList (s.toList.map Char.toLower)

theorem mem_scan_iff_twoLevels : ∃ name text d,
    HasFile 0 [47] twoLevels d [47, 100, 47, 98, 46, 84, 88, 84] name ∧ fromUtf8 name = some text ∧
      (d = 0 ∨ textFiles.recursive = true ∧ ∀ max, textFiles.maxDepth = some max → d ≤ max) ∧
      (textFiles.extensions = [] ∨
        ∃ e ∈ textFiles.extensions, lowerAscii e = lowerAscii (extensionOf name)) ∧
      ∀ pattern, textFiles.globPattern = some pattern → text.toList ∈ Glob.patternLanguage pattern := by
  have hscan : scanFiles lowerAscii textFiles [47] twoLevels =
      .ok [[47, 97, 46, 116, 120, 116], [47, 100, 47, 98, 46, 84, 88, 84]] := by decide +kernel
  exact (mem_scan_iff hscan _).mp (by simp)

theorem scan_filters_twoLevels : ∃ found,
    scanDirFiltered lowerAscii (.plain "n" none) .quiet (fun _ => .quiet)
      { allFiles with extensions := ["txt"] } [47] twoLevels Db.empty = .ok found ∧
    found.Sublist [([47, 97, 46, 116, 120, 116], .missing),
      ([47, 100, 47, 98, 46, 84, 88, 84], .missing), ([47, 100, 47, 99], .missing)] := by
  have hscan : scanDirFiltered lowerAscii (.plain "n" none) .quiet (fun _ => .quiet) allFiles [47]
      twoLevels Db.empty = .ok [([47, 97, 46, 116, 120, 116], .missing),
        ([47, 100, 47, 98, 46, 84, 88, 84], .missing), ([47, 100, 47, 99], .missing)] := by
    decide +kernel
  have hfilters : ∀ name, accepts lowerAscii { allFiles with extensions := ["txt"] } none name = true →
      accepts lowerAscii allFiles none name = true := fun name _ => by simp [accepts, allFiles]
  have hglob : ScanOptions.compileGlob { allFiles with extensions := ["txt"] } = .ok none := rfl
  have hglob' : allFiles.compileGlob = .ok none := rfl
  exact (scan_filters hglob hglob' rfl rfl hfilters [47] twoLevels).1 _ hscan

theorem scan_depth_mono_twoLevels : ∃ found,
    scanDirFiltered lowerAscii (.plain "n" none) .quiet (fun _ => .quiet)
      { allFiles with maxDepth := some 0 } [47] twoLevels Db.empty = .ok found ∧
    found.Sublist [([47, 97, 46, 116, 120, 116], .missing),
      ([47, 100, 47, 98, 46, 84, 88, 84], .missing), ([47, 100, 47, 99], .missing)] := by
  have hscan : scanDirFiltered lowerAscii (.plain "n" none) .quiet (fun _ => .quiet) allFiles [47]
      twoLevels Db.empty = .ok [([47, 97, 46, 116, 120, 116], .missing),
        ([47, 100, 47, 98, 46, 84, 88, 84], .missing), ([47, 100, 47, 99], .missing)] := by
    decide +kernel
  have hreach : ∀ d, ScanOptions.reaches { allFiles with maxDepth := some 0 } d = true →
      allFiles.reaches d = true := fun d _ => by simp [ScanOptions.reaches, allFiles]
  exact scan_depth_mono hreach rfl rfl hscan

end Samples

end LocalCache
