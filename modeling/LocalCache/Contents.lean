import LocalCache.Hashing
import LocalCache.BatchSequence
import LocalCache.Changes
import LocalCache.Runs

/-!
# Change detection over the history of the files

Files change in any way between the calls, and do not change during one. `FileHistory` is a run of
calls and of such changes, with the mode and the file of the last write under each key as history.
What a row holds is what that write read (`FileHistory.faithful_of_run`), so whatever a mode says fresh to
is what it means (`FreshMeans`), no digest is compared with one of the other kind, and a file that
is as it was written is fresh in the mode of the write (`detects_of_run`).
-/

namespace LocalCache

/-! ## Files -/

/-- A file at one moment, with its last modification in nanoseconds since the epoch. -/
structure FileState where
  content : List UInt8
  modified : ℤ
  size_lt : content.length < 2 ^ 64

namespace FileState

/-- The `mtime` that is recorded : 0 before the epoch, and else truncated to an `i64`. All times before
the epoch are recorded as the same. -/
def mtime (f : FileState) : ℤ := if f.modified < 0 then 0 else (Int64.ofInt f.modified).toInt

def size (f : FileState) : UInt64 := UInt64.ofNat f.content.length

theorem size_eq_iff {f f' : FileState} : f.size = f'.size ↔ f.content.length = f'.content.length := by
  have hf := f.size_lt
  have hf' := f'.size_lt
  rw [size, size, ← UInt64.toNat_inj, UInt64.toNat_ofNat', UInt64.toNat_ofNat', Nat.mod_eq_of_lt hf,
    Nat.mod_eq_of_lt hf']

end FileState

abbrev Disk := Path → Option FileState

/-- What the system does to the reads of one call : how much each returns, and what fails. -/
structure Io where
  short : ℕ → ℕ
  metadataError : Path → Option Error
  contentError : Path → Option Error

def Disk.read (disk : Disk) (error : Path → Option Error) (path : Path) : Except Error FileState :=
  match error path, disk path with
  | some err, _ => .error err
  | none, none => .error (.io "No such file or directory")
  | none, some f => .ok f

section Files

variable (blake3 : List UInt8 → List UInt8)

/-- What the files answer during one call. -/
def Disk.files (disk : Disk) (io : Io) : Files where
  metadata path := (disk.read io.metadataError path).map fun f => (f.mtime, f.size)
  computeFullHash path := (disk.read io.contentError path).map fun f =>
    computeFullHash blake3 io.short f.content
  computePartialHash path := do
    let f ← disk.read io.contentError path
    computePartialHash blake3 io.short f.content

def recordedHash (content : List UInt8) : ChangeDetectionMode → Option String
  | .metadataOnly => none
  | .metadataThenPartialHash => some (partialPrefix ++ toHex (blake3 (sample content)))
  | .metadataThenFullHash | .strictFullHash => some (toHex (blake3 content))

/-- What a write in this mode records of a file. -/
def recorded (mode : ChangeDetectionMode) (f : FileState) : FileMetadata :=
  ⟨f.mtime, f.size, recordedHash blake3 f.content mode⟩

end Files

/-- The mode stores a full hash. -/
def ChangeDetectionMode.StoresFull (mode : ChangeDetectionMode) : Prop :=
  mode = .metadataThenFullHash ∨ mode = .strictFullHash

section Reads

variable {blake3 : List UInt8 → List UInt8} {disk : Disk} {io : Io} {path : Path} {f : FileState}
  {mode writer : ChangeDetectionMode}

theorem Disk.read_eq_ok {error : Path → Option Error} :
    disk.read error path = .ok f ↔ error path = none ∧ disk path = some f := by
  unfold Disk.read
  split
  · next herr => simp [herr]
  · next hdisk => simp [hdisk]
  · next herr hdisk => simp [herr, hdisk]

theorem collectMetadata_files {current : FileMetadata} :
    collectMetadata (disk.files blake3 io) path = .ok current ↔
      ∃ f, disk.read io.metadataError path = .ok f ∧ current = ⟨f.mtime, f.size, none⟩ := by
  cases hread : disk.read io.metadataError path with
  | error err => simp [collectMetadata, Disk.files, hread, Except.map]
  | ok f => simp [collectMetadata, Disk.files, hread, Except.map, eq_comm]

theorem computeFullHash_files {h : String} :
    (disk.files blake3 io).computeFullHash path = .ok h ↔
      ∃ f, disk.read io.contentError path = .ok f ∧ h = toHex (blake3 f.content) := by
  cases hread : disk.read io.contentError path with
  | error err => simp [Disk.files, hread, Except.map]
  | ok f => simp [Disk.files, hread, Except.map, computeFullHash_eq, eq_comm]

theorem computePartialHash_files {h : String} :
    (disk.files blake3 io).computePartialHash path = .ok h ↔
      ∃ f, disk.read io.contentError path = .ok f ∧
        h = partialPrefix ++ toHex (blake3 (sample f.content)) := by
  cases hread : disk.read io.contentError path with
  | error err => simp [Disk.files, hread, bind, Except.bind]
  | ok f => simp [Disk.files, hread, bind, Except.bind, computePartialHash_eq, eq_comm]

theorem computeHashForMode_files {h : Option String}
    (hhash : computeHashForMode (disk.files blake3 io) mode path = .ok h) {f : FileState}
    (hfile : disk path = some f) : h = recordedHash blake3 f.content mode := by
  have hread : ∀ {f'}, disk.read io.contentError path = .ok f' → f' = f := fun hf' =>
    Option.some.inj ((Disk.read_eq_ok.mp hf').2.symm.trans hfile)
  have hmap : ∀ {digest : Except Error String}, digest.map some = .ok h →
      ∃ h', digest = .ok h' ∧ h = some h' := by
    intro digest hdigest
    cases digest with
    | error err => exact absurd hdigest (by simp [Except.map])
    | ok h' => exact ⟨h', rfl, (Except.ok.inj hdigest).symm⟩
  cases mode with
  | metadataOnly => exact (Except.ok.inj hhash).symm
  | metadataThenPartialHash =>
    obtain ⟨h', hdigest, rfl⟩ := hmap hhash
    obtain ⟨f', hf', rfl⟩ := computePartialHash_files.mp hdigest
    rw [hread hf']
    rfl
  | metadataThenFullHash =>
    obtain ⟨h', hdigest, rfl⟩ := hmap hhash
    obtain ⟨f', hf', rfl⟩ := computeFullHash_files.mp hdigest
    rw [hread hf']
    rfl
  | strictFullHash =>
    obtain ⟨h', hdigest, rfl⟩ := hmap hhash
    obtain ⟨f', hf', rfl⟩ := computeFullHash_files.mp hdigest
    rw [hread hf']
    rfl

/-- The kind of hash a mode stores, and what it stores under it. -/
theorem recorded_hash_cases (blake3 : List UInt8 → List UInt8) (writer : ChangeDetectionMode)
    (f : FileState) :
    (writer = .metadataOnly ∧ (recorded blake3 writer f).hash = none) ∨
      (writer = .metadataThenPartialHash ∧ (recorded blake3 writer f).hash =
        some (partialPrefix ++ toHex (blake3 (sample f.content)))) ∨
      writer.StoresFull ∧ (recorded blake3 writer f).hash = some (toHex (blake3 f.content)) := by
  cases writer with
  | metadataOnly => exact .inl ⟨rfl, rfl⟩
  | metadataThenPartialHash => exact .inr (.inl ⟨rfl, rfl⟩)
  | metadataThenFullHash => exact .inr (.inr ⟨.inl rfl, rfl⟩)
  | strictFullHash => exact .inr (.inr ⟨.inr rfl, rfl⟩)

end Reads

/-! ## What an answer of fresh means -/

/-- The recorded `mtime` and size are as they were. Two times before the epoch count as one `mtime`. -/
def SameMetadata (f₀ f : FileState) : Prop :=
  f.mtime = f₀.mtime ∧ f.content.length = f₀.content.length

/-- What the mode `writer` hashed of a file is as it was. -/
def SameHashed (f₀ f : FileState) : ChangeDetectionMode → Prop
  | .metadataOnly => False
  | .metadataThenPartialHash => SameSample f.content f₀.content
  | .metadataThenFullHash | .strictFullHash => f.content = f₀.content

/-- What an answer of fresh means, mode by mode, for a file `f` that was `f₀` when it was written in
the mode `writer`. -/
def FreshMeans (writer : ChangeDetectionMode) (f₀ f : FileState) : ChangeDetectionMode → Prop
  | .metadataOnly => SameMetadata f₀ f
  | .metadataThenPartialHash => SameMetadata f₀ f ∨
      f.content.length = f₀.content.length ∧ SameHashed f₀ f writer
  | .metadataThenFullHash => SameMetadata f₀ f ∨ f.content = f₀.content
  | .strictFullHash => f.content = f₀.content

section Means

variable {blake3 : List UInt8 → List UInt8} {disk : Disk} {io : Io} {path : Path}
  {f₀ f : FileState} {mode writer : ChangeDetectionMode} {files files' : Files}
  {stored : FileMetadata}

theorem holdsFullHash_recorded (h : HoldsFullHash (recorded blake3 writer f₀)) :
    writer.StoresFull := by
  obtain ⟨storedHash, hhash, hkind⟩ := h
  rcases recorded_hash_cases blake3 writer f₀ with ⟨-, hnone⟩ | ⟨-, hsome⟩ | ⟨hfull, -⟩
  · rw [hnone] at hhash
    exact absurd hhash (by simp)
  · obtain rfl := Option.some.inj (hsome.symm.trans hhash)
    rw [isPartialHash_prefixed] at hkind
    exact absurd hkind (by decide)
  · exact hfull

/-- A digest that agrees is that of the file, by the kind of hash that was stored. -/
theorem digestAgrees_recorded (hinj : Function.Injective blake3)
    (h : DigestAgrees (disk.files blake3 io) path (recorded blake3 writer f₀)) :
    ∃ f, disk path = some f ∧
      (writer = .metadataThenPartialHash ∧ sample f.content = sample f₀.content ∨
        writer.StoresFull ∧ f.content = f₀.content) := by
  obtain ⟨storedHash, hhash, hdigest⟩ := h
  rcases recorded_hash_cases blake3 writer f₀ with
    ⟨-, hnone⟩ | ⟨hwriter, hsome⟩ | ⟨hfull, hsome⟩
  · rw [hnone] at hhash
    exact absurd hhash (by simp)
  · obtain rfl := Option.some.inj (hsome.symm.trans hhash)
    rw [Files.digestFor, if_pos (isPartialHash_prefixed _)] at hdigest
    obtain ⟨f, hread, heq⟩ := computePartialHash_files.mp hdigest
    exact ⟨f, (Disk.read_eq_ok.mp hread).2, .inl ⟨hwriter, (sample_inj hinj heq).symm⟩⟩
  · obtain rfl := Option.some.inj (hsome.symm.trans hhash)
    rw [Files.digestFor, if_neg (by rw [isPartialHash_toHex]; exact Bool.false_ne_true)] at hdigest
    obtain ⟨f, hread, heq⟩ := computeFullHash_files.mp hdigest
    exact ⟨f, (Disk.read_eq_ok.mp hread).2, .inr ⟨hfull, (fullHash_inj hinj heq).symm⟩⟩

theorem sameMetadata_of_matches
    (h : metadataMatches (recorded blake3 writer f₀) ⟨f.mtime, f.size, none⟩ = true) :
    SameMetadata f₀ f := by
  rw [metadataMatches, Bool.and_eq_true, decide_eq_true_eq, decide_eq_true_eq] at h
  exact ⟨h.1.symm, (FileState.size_eq_iff.mp h.2).symm⟩

/-- Every mode but the strict one reads the metadata. -/
theorem collectMetadata_of_detectChange {status : CacheStatus} (hmode : mode ≠ .strictFullHash)
    (h : detectChange files path stored mode = .ok status) :
    ∃ current, collectMetadata files path = .ok current := by
  cases hcurrent : collectMetadata files path with
  | ok current => exact ⟨current, rfl⟩
  | error err =>
    exfalso
    cases mode with
    | metadataOnly => simp [detectChange, detectMetadataOnly, bind, Except.bind, hcurrent] at h
    | metadataThenPartialHash =>
      simp [detectChange, detectMetadataThenPartialHash, bind, Except.bind, hcurrent] at h
    | metadataThenFullHash =>
      simp [detectChange, detectMetadataThenFullHash, bind, Except.bind, hcurrent] at h
    | strictFullHash => exact hmode rfl

theorem sameHashed_of_agrees (hlen : f.content.length = f₀.content.length)
    (h : writer = .metadataThenPartialHash ∧ sample f.content = sample f₀.content ∨
      writer.StoresFull ∧ f.content = f₀.content) : SameHashed f₀ f writer := by
  rcases h with ⟨rfl, hsample⟩ | ⟨rfl | rfl, hcontent⟩
  · exact sameSample_of_sample_eq hlen hsample
  · exact hcontent
  · exact hcontent

/-- An answer of fresh is right, whatever happened to the file. -/
theorem freshMeans_of_detectChange (hinj : Function.Injective blake3)
    (h : detectChange (disk.files blake3 io) path (recorded blake3 writer f₀) mode = .ok .fresh) :
    ∃ f, disk path = some f ∧ FreshMeans writer f₀ f mode := by
  by_cases hmode : mode = .strictFullHash
  · rw [hmode] at h ⊢
    obtain ⟨hholds, hagrees⟩ := compareFullHash_eq_fresh.mp h
    obtain ⟨f, hf, ⟨rfl, -⟩ | ⟨-, hcontent⟩⟩ := digestAgrees_recorded hinj hagrees
    · exact absurd (holdsFullHash_recorded hholds) (by simp [ChangeDetectionMode.StoresFull])
    · exact ⟨f, hf, hcontent⟩
  obtain ⟨current, hcurrent⟩ := collectMetadata_of_detectChange hmode h
  have hconfirms := (detectChange_eq_fresh hcurrent).mp h
  obtain ⟨f, hread, rfl⟩ := collectMetadata_files.mp hcurrent
  have hf := (Disk.read_eq_ok.mp hread).2
  have hfile : ∀ {f'}, disk path = some f' → f' = f := fun hf' => Option.some.inj (hf'.symm.trans hf)
  refine ⟨f, hf, ?_⟩
  cases mode with
  | metadataOnly => exact sameMetadata_of_matches hconfirms
  | metadataThenPartialHash =>
    rcases hconfirms with hmatch | ⟨hsize, hagrees⟩
    · exact .inl (sameMetadata_of_matches hmatch)
    · obtain ⟨f', hf', hsame⟩ := digestAgrees_recorded hinj hagrees
      obtain rfl := hfile hf'
      have hlen := (FileState.size_eq_iff.mp hsize).symm
      exact .inr ⟨hlen, sameHashed_of_agrees hlen hsame⟩
  | metadataThenFullHash =>
    rcases hconfirms with hmatch | ⟨-, hholds, hagrees⟩
    · exact .inl (sameMetadata_of_matches hmatch)
    · obtain ⟨f', hf', ⟨rfl, -⟩ | ⟨-, hcontent⟩⟩ := digestAgrees_recorded hinj hagrees
      · exact absurd (holdsFullHash_recorded hholds) (by simp [ChangeDetectionMode.StoresFull])
      · obtain rfl := hfile hf'
        exact .inr hcontent
  | strictFullHash => exact absurd rfl hmode

/-- The answer depends on the metadata and on the digest of the stored kind only. -/
theorem detectChange_congr (hmetadata : files.metadata path = files'.metadata path)
    (hdigest : ∀ h, stored.hash = some h → files.digestFor path h = files'.digestFor path h) :
    detectChange files path stored mode = detectChange files' path stored mode := by
  have hcollect : collectMetadata files path = collectMetadata files' path := by
    rw [collectMetadata, collectMetadata, hmetadata]
  have hfull : compareFullHash files path stored = compareFullHash files' path stored := by
    unfold compareFullHash
    cases hhash : stored.hash with
    | none => rfl
    | some storedHash =>
      have hd := hdigest storedHash hhash
      cases hkind : isPartialHash storedHash with
      | true => simp only [hkind, if_true]
      | false =>
        simp only [Files.digestFor, hkind, Bool.false_eq_true, if_false] at hd ⊢
        rw [hd]
  cases mode with
  | metadataOnly => simp only [detectChange, detectMetadataOnly, hcollect]
  | metadataThenPartialHash =>
    simp only [detectChange, detectMetadataThenPartialHash, hcollect]
    cases hhash : stored.hash with
    | none => rfl
    | some storedHash =>
      have hd := hdigest storedHash hhash
      cases hkind : isPartialHash storedHash with
      | true =>
        simp only [Files.digestFor, hkind, if_true] at hd ⊢
        rw [hd]
      | false =>
        simp only [Files.digestFor, hkind, Bool.false_eq_true, if_false] at hd ⊢
        rw [hd]
  | metadataThenFullHash => simp only [detectChange, detectMetadataThenFullHash, hcollect, hfull]
  | strictFullHash => exact hfull

/-- A file that is as it was written is fresh in the mode of the write. -/
theorem detectChange_unchanged (hfile : disk path = some f₀)
    (hmetadata : io.metadataError path = none) (hcontent : io.contentError path = none) :
    detectChange (disk.files blake3 io) path (recorded blake3 writer f₀) writer = .ok .fresh := by
  have hcurrent : collectMetadata (disk.files blake3 io) path = .ok ⟨f₀.mtime, f₀.size, none⟩ :=
    collectMetadata_files.mpr ⟨f₀, Disk.read_eq_ok.mpr ⟨hmetadata, hfile⟩, rfl⟩
  rw [detectChange_eq_fresh hcurrent]
  have hmatch : metadataMatches (recorded blake3 writer f₀) ⟨f₀.mtime, f₀.size, none⟩ = true := by
    simp [metadataMatches, recorded]
  cases writer with
  | metadataOnly => exact hmatch
  | metadataThenPartialHash => exact .inl hmatch
  | metadataThenFullHash => exact .inl hmatch
  | strictFullHash =>
    have hdigest : (disk.files blake3 io).computeFullHash path = .ok (toHex (blake3 f₀.content)) :=
      computeFullHash_files.mpr ⟨f₀, Disk.read_eq_ok.mpr ⟨hcontent, hfile⟩, rfl⟩
    refine ⟨⟨_, rfl, isPartialHash_toHex _⟩, ⟨_, rfl, ?_⟩⟩
    rw [Files.digestFor, if_neg (by rw [isPartialHash_toHex]; exact Bool.false_ne_true), hdigest]

end Means

/-! ## Runs -/

section Events

variable {T : Type} (files : Files) (mode : ChangeDetectionMode)

/-- The write with these files, by an engine of this mode. -/
def Write.onFiles : Write T → Write T
  | .set src path payload => .set (src.onFiles files mode) path payload
  | .batchSet src items => .batchSet (src.onFiles files mode) items
  | .importEntries src records => .importEntries (src.onFiles files mode) records
  | .importFrom source => .importFrom source

def Event.onFiles : Event T → Event T
  | .write e w call => .write e w (call.onFiles files mode)
  | .remove e w src path => .remove e w (src.onFiles files mode) path
  | .get e w src path => .get e w (src.onFiles files mode) path
  | .getIfFresh e w src path => .getIfFresh e w (src.onFiles files mode) path
  | .touch e w src path => .touch e w (src.onFiles files mode) path
  | .load i w src => .load i w (src.onFiles files mode)
  | .finish i w => .finish i w

end Events

/-- A file becomes another one or disappears, or an engine of some mode takes a step. -/
inductive FileEvent (T : Type)
  | edit (path : Path) (file : Option FileState)
  | call (mode : ChangeDetectionMode) (io : Io) (ev : Event T)

/-- The engines, the files, and the mode and the file of the last `set` under each key, as a history
variable. -/
structure FileHistory (T : Type) where
  system : System T
  disk : Disk
  written : String → String → Option (ChangeDetectionMode × FileState)

namespace FileHistory

variable {T : Type}

def init (db : Db) (disk : Disk) : FileHistory T := ⟨System.init db, disk, fun _ _ => none⟩

/-- A write that succeeds takes the files of its paths. An import takes none. -/
def writtenAfter (h : FileHistory T) (mode : ChangeDetectionMode) :
    Event T → String → String → Option (ChangeDetectionMode × FileState)
  | .write e w write =>
    match (write.run e w h.system.db).result with
    | .ok () => fun ns path =>
      if ns = e.ns ∧ path ∈ write.paths then
        if write.isImport then none else (h.disk (strBytes path)).map fun f => (mode, f)
      else h.written ns path
    | .error _ => h.written
  | _ => h.written

def step (blake3 : List UInt8 → List UInt8) (h : FileHistory T) : FileEvent T → FileHistory T
  | .edit path file => { h with disk := Function.update h.disk path file }
  | .call mode io ev =>
    let ev := ev.onFiles (h.disk.files blake3 io) mode
    { h with system := h.system.step ev, written := h.writtenAfter mode ev }

end FileHistory

/-! ## What a write records -/

/-- What a write stores, apart from an import. -/
def Write.items {T : Type} : Write T → List Prepared
  | .set src path payload => (prepare src path payload).toOption.toList
  | .batchSet src items => batchPrepared src items
  | .importEntries _ _ | .importFrom _ => []

section Rows

variable {T : Type} {e : Engine} {w : World} {db db' : Db} {t t' : Tx} {ns : String}

/-- After upserts a row was written by one of them, or was there under another key. -/
theorem Upserts.row_cases {P : Db → FileRow → Prop} {paths : List String} {ids : List ℕ}
    (h : Upserts ns P paths ids db db') {r : FileRow} (hr : r ∈ db'.files) :
    (r.ns = ns ∧ r.path ∈ paths ∧ ∃ db₁, P db₁ r) ∨
      r ∈ db.files ∧ ¬(r.ns = ns ∧ r.path ∈ paths) := by
  induction h with
  | nil => exact .inr ⟨hr, fun h => absurd h.2 List.not_mem_nil⟩
  | @snoc paths ids db₀ db₁ db₂ path row _ last holds ih =>
    rcases (last.mem r).mp hr with rfl | ⟨hmem, hkey⟩
    · exact .inl ⟨last.hasKey.1, by rw [last.hasKey.2]; simp, db₁, holds⟩
    · rcases ih hmem with ⟨hns, hpath, hP⟩ | ⟨hold, hnot⟩
      · exact .inl ⟨hns, List.mem_append_left _ hpath, hP⟩
      · refine .inr ⟨hold, fun hin => ?_⟩
        rcases List.mem_append.mp hin.2 with hpath | hpath
        · exact hnot ⟨hin.1, hpath⟩
        · exact hkey ⟨hin.1, List.mem_singleton.mp hpath⟩

/-- The row has the metadata of one of the items. -/
def Records (items : List Prepared) (_ : Db) (row : FileRow) : Prop :=
  ∃ item ∈ items, row.path = item.path ∧ row.metadata = item.metadata

theorem upsertPrepared_records {item : Prepared} {id : ℕ} (hv : t.db.Valid)
    (h : upsertPrepared e w item t = .ok (id, t')) :
    ∃ row, Upserted e.ns item.path row t.db t'.db ∧ row.id = id ∧ row.path = item.path ∧
      row.metadata = item.metadata := by
  obtain ⟨hstored, -⟩ := upsertInTx_stored hv h
  exact ⟨_, hstored.upserted, rfl, rfl, rfl⟩

theorem upsertAll_records {items : List Prepared} {ids : List ℕ} (hv : t.db.Valid)
    (h : StateExcept.forEach (upsertPrepared e w) items t = .ok (ids, t')) :
    Upserts e.ns (Records items) (items.map Prepared.path) ids t.db t'.db := by
  have hsub : ∀ {done : List Prepared} {db₀ db₁ : Db} {paths : List String} {ids : List ℕ},
      Upserts e.ns (Records done) paths ids db₀ db₁ → ∀ item : Prepared,
        Upserts e.ns (Records (done ++ [item])) paths ids db₀ db₁ := by
    intro done db₀ db₁ paths ids hu item
    induction hu with
    | nil => exact .nil _
    | snoc _ last holds ih =>
      obtain ⟨it, hit, hrow⟩ := holds
      exact ih.snoc last ⟨it, List.mem_append_left _ hit, hrow⟩
  refine StateExcept.forEach_ok (fun done ids s => Upserts e.ns (Records done)
    (done.map Prepared.path) ids t.db s.db) ?_ items [] [] ids t t' (Upserts.nil t.db) h
  intro done ids item id s s' hs hstep
  obtain ⟨row, hu, rfl, hpath, hmetadata⟩ := upsertPrepared_records (hs.valid hv) hstep
  rw [List.map_append, List.map_singleton]
  exact (hsub hs item).snoc hu ⟨item, by simp, hpath, hmetadata⟩

/-- After a write that succeeded a row was written by it, or was there under another key. -/
def WroteRows (e : Engine) (write : Write T) (db db' : Db) : Prop :=
  ∀ r ∈ db'.files, (r.ns = e.ns ∧ r.path ∈ write.paths ∧
    (write.isImport = false → Records write.items db r)) ∨
      r ∈ db.files ∧ ¬(r.ns = e.ns ∧ r.path ∈ write.paths)

theorem wroteRows_of_boundedWrite {α : Type} (write : Write T) (body : TxM (α × List ℕ))
    (hv : db.Valid) (hbody : ∀ t₀ t a ids, t₀.db = db → body t₀ = .ok ((a, ids), t) →
      Upserts e.ns (Records write.items) write.paths ids db t.db) :
    (∃ a, (boundedWrite e w body db).result = .ok a ∧
      WroteRows e write db (boundedWrite e w body db).db) ∨
      ∃ err, boundedWrite e w body db = .ofError err db := by
  rcases boundedWrite_cases (Records write.items) write.paths body hv hbody with
    ⟨a, written, victims, hok, hwrote⟩ | herr
  · refine .inl ⟨a, hok, fun r hr => ?_⟩
    rcases hwrote.upserts.row_cases ((hwrote.evicted.mem r).mp hr).1 with ⟨hns, hpath, _, hrow⟩ | hold
    · exact .inl ⟨hns, hpath, fun _ => hrow⟩
    · exact .inr hold
  · exact .inr herr

/-- The paths of a write that is no import are those of its items, once all is prepared. -/
theorem Write.paths_set {src : Sources T} {path : Path} {payload : T} {item : Prepared}
    (h : prepare src path payload = .ok item) :
    (Write.set src path payload).paths = [item.path] := by
  unfold prepare at h
  unfold Write.paths
  cases hocc : occupy src path with
  | error err => simp [hocc] at h
  | ok p =>
    obtain ⟨canonical, pathStr, metadata⟩ := p
    simp only [hocc] at h ⊢
    cases hencode : src.encode pathStr payload with
    | error err => simp [hencode] at h
    | ok encoded =>
      rw [hencode] at h
      rw [← Except.ok.inj h]

theorem Write.rows_set (src : Sources T) (path : Path) (payload : T) (hv : db.Valid) :
    ((Write.set src path payload).run e w db).result = .ok () ∧
        WroteRows e (.set src path payload) db ((Write.set src path payload).run e w db).db ∨
      ∃ err, (Write.set src path payload).run e w db = .ofError err db := by
  show (LocalCache.set e src w path payload db).result = .ok () ∧
    WroteRows e (.set src path payload) db (LocalCache.set e src w path payload db).db ∨
      ∃ err, LocalCache.set e src w path payload db = .ofError err db
  by_cases hro : e.readOnly = true
  · rw [LocalCache.set, if_pos hro]
    exact .inr ⟨_, rfl⟩
  rw [set_eq e src w path payload db (by simpa using hro)]
  cases hprepare : prepare src path payload with
  | error err => exact .inr ⟨_, rfl⟩
  | ok item =>
    have hitems : (Write.set src path payload).items = [item] := by
      rw [Write.items, hprepare]
      rfl
    rcases wroteRows_of_boundedWrite (e := e) (w := w) (.set src path payload) (do
        let id ← upsertPrepared e w item
        pure ((), [id])) hv (by
      rintro t₀ t a ids rfl h
      obtain ⟨id, hup, heq⟩ := StateExcept.map_eq_ok h
      obtain ⟨-, rfl⟩ := Prod.mk.inj heq
      obtain ⟨row, hu, rfl, hrow⟩ := upsertPrepared_records hv hup
      rw [hitems, Write.paths_set hprepare]
      exact (Upserts.nil t₀.db).snoc hu ⟨item, List.mem_singleton_self item, hrow⟩)
      with ⟨_, hok, hrows⟩ | herr
    · exact .inl ⟨hok, hrows⟩
    · exact .inr herr

theorem Write.prepare_of_set_ok {src : Sources T} {path : Path} {payload : T}
    (h : ((Write.set src path payload).run e w db).result = .ok ()) :
    ∃ item, prepare src path payload = .ok item := by
  have hset : (LocalCache.set e src w path payload db).result = .ok () := h
  by_cases hro : e.readOnly = true
  · rw [LocalCache.set, if_pos hro] at hset
    exact absurd hset (by simp [Outcome.ofError])
  rw [set_eq e src w path payload db (by simpa using hro)] at hset
  cases hprepare : prepare src path payload with
  | error err =>
    rw [hprepare] at hset
    exact absurd hset (by simp [Outcome.ofError])
  | ok item => exact ⟨item, rfl⟩

theorem Write.rows_batchSet (src : Sources T) (items : List (Path × T)) (hv : db.Valid) :
    ((Write.batchSet src items).run e w db).result = .ok () ∧
        WroteRows e (.batchSet src items) db ((Write.batchSet src items).run e w db).db ∨
      ∃ err, (Write.batchSet src items).run e w db = .ofError err db := by
  show ((LocalCache.batchSet e src w items db).map fun _ => ()).result = .ok () ∧
    WroteRows e (.batchSet src items) db ((LocalCache.batchSet e src w items db).map fun _ => ()).db ∨
      ∃ err, (LocalCache.batchSet e src w items db).map (fun _ => ()) = .ofError err db
  unfold LocalCache.batchSet
  by_cases hro : e.readOnly
  · rw [if_pos hro]
    exact .inr ⟨_, rfl⟩
  rw [if_neg hro]
  cases checkDistinct e "items" "paths" ((batchOccupying src items).map Occupying.pathStr) with
  | error err => exact .inr ⟨_, rfl⟩
  | ok _ =>
    simp only
    rcases wroteRows_of_boundedWrite (e := e) (w := w) (.batchSet src items) (do
        let ids ← StateExcept.forEach (upsertPrepared e w) (batchPrepared src items)
        pure ((⟨ids.length, (batchFailed src items).map fun item => (item.path, item.error)⟩ :
          BatchSetReport), ids)) hv (by
      rintro t₀ t a ids rfl h
      obtain ⟨ids', hall, heq⟩ := StateExcept.map_eq_ok h
      obtain ⟨-, rfl⟩ := Prod.mk.inj heq
      exact upsertAll_records hv hall) with ⟨a, hok, hrows⟩ | ⟨err, herr⟩
    · exact .inl ⟨by rw [Outcome.map, hok]; rfl, hrows⟩
    · exact .inr ⟨err, by rw [herr]; rfl⟩

/-- A write succeeds and wrote its rows, or changes nothing. -/
theorem Write.rows_cases (write : Write T) (hv : db.Valid) :
    (write.run e w db).result = .ok () ∧ WroteRows e write db (write.run e w db).db ∨
      ∃ err, write.run e w db = .ofError err db := by
  have himports : write.isImport = true → (write.run e w db).result = .ok () ∧
      WroteRows e write db (write.run e w db).db ∨ ∃ err, write.run e w db = .ofError err db := by
    intro hi
    cases write.run_cases (e := e) (w := w) hv with
    | wrote written victims hok hwrote _ =>
      refine .inl ⟨hok, fun r hr => ?_⟩
      rcases hwrote.upserts.row_cases ((hwrote.evicted.mem r).mp hr).1 with ⟨hns, hpath, -⟩ | hold
      · exact .inl ⟨hns, hpath, fun hfalse => absurd (hi.symm.trans hfalse) (by decide)⟩
      · exact .inr hold
    | empty _ hpaths ho =>
      rw [ho]
      exact .inl ⟨rfl, fun r hr => .inr ⟨hr, fun h => by simp [hpaths] at h⟩⟩
    | failed err ho => exact .inr ⟨err, ho⟩
  cases write with
  | set src path payload => exact rows_set src path payload hv
  | batchSet src items => exact rows_batchSet src items hv
  | importEntries src records => exact himports rfl
  | importFrom source => exact himports rfl

theorem occupy_ok {src : Sources T} {path canonical : Path} {pathStr : String}
    {metadata : FileMetadata} (h : occupy src path = .ok (canonical, pathStr, metadata)) :
    strBytes pathStr = canonical ∧ ∃ current hash, src.collectMetadata canonical = .ok current ∧
      src.computeHash canonical = .ok hash ∧ metadata = { current with hash := hash } := by
  unfold occupy at h
  simp only [bind, Except.bind, pure, Except.pure] at h
  cases hnormalize : src.normalizePath path with
  | error err => simp [hnormalize, Except.mapError] at h
  | ok canonical' =>
    cases htext : pathToStr canonical' with
    | error err => simp [hnormalize, htext, Except.mapError] at h
    | ok text =>
      cases hcurrent : src.collectMetadata canonical' with
      | error err => simp [hnormalize, htext, hcurrent, Except.mapError] at h
      | ok current =>
        cases hhash : src.computeHash canonical' with
        | error err => simp [hnormalize, htext, hcurrent, hhash, Except.mapError] at h
        | ok hash =>
          simp only [hnormalize, htext, hcurrent, hhash, Except.mapError] at h
          obtain ⟨rfl, rfl, rfl⟩ : canonical' = canonical ∧ text = pathStr ∧
              { current with hash := hash } = metadata := by simpa using h
          refine ⟨?_, current, hash, hcurrent, hhash, rfl⟩
          unfold pathToStr at htext
          split at htext
          · next s hread =>
            rw [← Except.ok.inj htext]
            exact strBytes_of_fromUtf8 hread
          · exact absurd htext (by simp)

/-- An item that is prepared records its file. -/
theorem recorded_of_prepare {blake3 : List UInt8 → List UInt8} {disk : Disk} {io : Io}
    {mode : ChangeDetectionMode} {src : Sources T} {path : Path} {payload : T} {item : Prepared}
    (h : prepare (src.onFiles (disk.files blake3 io) mode) path payload = .ok item) :
    ∃ f, disk (strBytes item.path) = some f ∧ item.metadata = recorded blake3 mode f := by
  unfold prepare at h
  cases hocc : occupy (src.onFiles (disk.files blake3 io) mode) path with
  | error err => simp [hocc] at h
  | ok p =>
    obtain ⟨canonical, pathStr, metadata⟩ := p
    obtain ⟨htext, current, hash, hcurrent, hhash, rfl⟩ := occupy_ok hocc
    simp only [hocc] at h
    cases hencode : (src.onFiles (disk.files blake3 io) mode).encode pathStr payload with
    | error err => simp [hencode] at h
    | ok encoded =>
      rw [hencode] at h
      obtain rfl := Except.ok.inj h
      obtain ⟨f, hread, rfl⟩ := collectMetadata_files.mp hcurrent
      have hfile := (Disk.read_eq_ok.mp hread).2
      rw [htext]
      exact ⟨f, hfile, by rw [computeHashForMode_files hhash hfile]; rfl⟩

theorem recorded_of_mem_items {blake3 : List UInt8 → List UInt8} {disk : Disk} {io : Io}
    {mode : ChangeDetectionMode} {write : Write T} {item : Prepared}
    (h : item ∈ (write.onFiles (disk.files blake3 io) mode).items) :
    ∃ f, disk (strBytes item.path) = some f ∧ item.metadata = recorded blake3 mode f := by
  have hprepare : ∀ {result : Except (Path × Error) Prepared}, item ∈ result.toOption →
      result = .ok item := by
    intro result hitem
    cases result with
    | error err => exact absurd hitem (by simp [Except.toOption])
    | ok item' => rw [Option.some.inj hitem]
  cases write with
  | set src path payload =>
    exact recorded_of_prepare (hprepare (Option.mem_toList.mp h))
  | batchSet src items =>
    rw [Write.onFiles, Write.items, batchPrepared_eq] at h
    obtain ⟨it, -, hitem⟩ := List.mem_filterMap.mp h
    exact recorded_of_prepare (hprepare hitem)
  | importEntries src records => exact absurd h List.not_mem_nil
  | importFrom source => exact absurd h List.not_mem_nil

end Rows

/-! ## What a run records -/

section Runs

variable {T : Type} {blake3 : List UInt8 → List UInt8}

/-- Changes that store no path keep the metadata of every row that stays. -/
theorem Changes.metadata {c c' : Logged} (h : Changes (fun _ => False) c c') (hv : c.db.Valid) :
    ∀ r' ∈ c'.db.files, ∃ r ∈ c.db.files, r.ns = r'.ns ∧ r.path = r'.path ∧
      r.metadata = r'.metadata := by
  refine Changes.invariant (P := fun c' => ∀ r' ∈ c'.db.files, ∃ r ∈ c.db.files, r.ns = r'.ns ∧
    r.path = r'.path ∧ r.metadata = r'.metadata) ?_ h hv fun r hr => ⟨r, hr, rfl, rfl, rfl⟩
  intro c₁ c₂ hv₁ hkept hchange
  cases hchange with
  | write hpath => exact hpath.elim
  | importRow hpath => exact hpath.elim
  | use _ _ hrec =>
    intro r' hr'
    obtain ⟨-, -, -, hfiles⟩ := Sql.recordUse_ok hv₁ hrec
    rw [hfiles] at hr'
    obtain ⟨r, hr, rfl⟩ := List.mem_map.mp hr'
    obtain ⟨r₀, hr₀, hrow⟩ := hkept r hr
    refine ⟨r₀, hr₀, ?_⟩
    split_ifs <;> exact hrow
  | delete hsub => exact fun r' hr' => hkept r' (hsub r' hr')
  | forget => exact hkept

namespace FileHistory

/-- Every row under a key that was written holds what was recorded of the file. -/
structure Faithful (blake3 : List UInt8 → List UInt8) (h : FileHistory T) : Prop where
  valid : h.system.db.Valid
  held : h.system.Held
  rows : ∀ r ∈ h.system.db.files, ∀ mode f, h.written r.ns r.path = some (mode, f) →
    r.metadata = recorded blake3 mode f

theorem db_step_write {s : System T} {e : Engine} {w : World} {write : Write T} :
    (s.step (.write e w write)).db = (write.run e w s.db).db := by
  unfold System.step
  dsimp only
  split_ifs <;> rfl

/-- A step that stores nothing keeps what is recorded. -/
theorem Faithful.rows_of_paths_nil {h : FileHistory T} (hf : h.Faithful blake3) {ev : Event T}
    (hpaths : ev.paths = []) : ∀ r' ∈ (h.system.step ev).db.files, ∀ mode f,
      h.written r'.ns r'.path = some (mode, f) → r'.metadata = recorded blake3 mode f := by
  have hchanges : Changes (fun _ => False) h.system.logged (h.system.step ev).logged :=
    (System.changes_step h.system ev hf.valid hf.held fun path hpath => by simp [hpaths] at hpath).1
  intro r' hr' mode f hwritten
  obtain ⟨r, hr, hns, hpath, hmetadata⟩ := hchanges.metadata hf.valid r' hr'
  rw [← hns, ← hpath] at hwritten
  rw [← hmetadata]
  exact hf.rows r hr mode f hwritten

/-- A write records its files, and keeps what is recorded under other keys. -/
theorem Faithful.rows_of_write {h : FileHistory T} (hf : h.Faithful blake3)
    (mode : ChangeDetectionMode) (io : Io) (e : Engine) (w : World) (write : Write T) :
    let ev := (Event.write e w write).onFiles (h.disk.files blake3 io) mode
    ∀ r ∈ (h.system.step ev).db.files, ∀ mode' f,
      h.writtenAfter mode ev r.ns r.path = some (mode', f) → r.metadata = recorded blake3 mode' f := by
  simp only [Event.onFiles, db_step_write, writtenAfter]
  intro r hr mode' f hwritten
  rcases (write.onFiles (h.disk.files blake3 io) mode).rows_cases (e := e) (w := w) hf.valid with
    ⟨hok, hrows⟩ | ⟨err, herr⟩
  · simp only [hok] at hwritten
    rcases hrows r hr with ⟨hns, hpath, hrecords⟩ | ⟨hold, hnot⟩
    · rw [if_pos ⟨hns, hpath⟩] at hwritten
      split_ifs at hwritten with hi
      obtain ⟨item, hitem, hitempath, hmetadata⟩ := hrecords (by simpa using hi)
      obtain ⟨f', hf', hrecorded⟩ := recorded_of_mem_items hitem
      rw [hitempath, hf', Option.map_some] at hwritten
      obtain ⟨rfl, rfl⟩ := Prod.mk.inj (Option.some.inj hwritten)
      rw [hmetadata, hrecorded]
    · rw [if_neg hnot] at hwritten
      exact hf.rows r hold mode' f hwritten
  · simp only [herr, Outcome.ofError] at hwritten hr
    exact hf.rows r hr mode' f hwritten

theorem Faithful.step {h : FileHistory T} (hf : h.Faithful blake3) (ev : FileEvent T) :
    (h.step blake3 ev).Faithful blake3 := by
  cases ev with
  | edit path file => exact ⟨hf.valid, hf.held, hf.rows⟩
  | call mode io ev =>
    have hstep : Changes (fun _ => True) h.system.logged
        (h.system.step (ev.onFiles (h.disk.files blake3 io) mode)).logged ∧
          (h.system.step (ev.onFiles (h.disk.files blake3 io) mode)).Held :=
      System.changes_step h.system _ hf.valid hf.held fun _ _ => trivial
    refine ⟨(hstep.1.keeps hf.valid).2, hstep.2, ?_⟩
    cases ev with
    | write e w write => exact hf.rows_of_write mode io e w write
    | remove e w src path => exact hf.rows_of_paths_nil rfl
    | get e w src path => exact hf.rows_of_paths_nil rfl
    | getIfFresh e w src path => exact hf.rows_of_paths_nil rfl
    | touch e w src path => exact hf.rows_of_paths_nil rfl
    | load i w src => exact hf.rows_of_paths_nil rfl
    | finish i w => exact hf.rows_of_paths_nil rfl

theorem faithful_of_run {db : Db} (hv : db.Valid) (disk : Disk) (events : List (FileEvent T)) :
    (runFrom (step blake3) (init db disk) events).Faithful blake3 :=
  runFrom_induction (fun _ ev hf => hf.step ev) events
    ⟨hv, System.held_init db, fun _ _ _ _ h => absurd h (by simp [init])⟩

/-- A `set` that succeeds is recorded with its mode and the file it read. -/
theorem written_set (h : FileHistory T) (mode : ChangeDetectionMode) (io : Io) (e : Engine)
    (w : World) (src : Sources T) (path : Path) (payload : T)
    (hok : ((Write.set (src.onFiles (h.disk.files blake3 io) mode) path payload).run e w
      h.system.db).result = .ok ()) :
    ∃ pathStr f, (Write.set (src.onFiles (h.disk.files blake3 io) mode) path payload).paths =
        [pathStr] ∧ h.disk (strBytes pathStr) = some f ∧
      (h.step blake3 (.call mode io (.write e w (.set src path payload)))).written e.ns pathStr =
        some (mode, f) := by
  obtain ⟨item, hprepare⟩ := Write.prepare_of_set_ok hok
  have hpaths := Write.paths_set hprepare
  obtain ⟨f, hf, -⟩ := recorded_of_prepare hprepare
  refine ⟨item.path, f, hpaths, hf, ?_⟩
  simp only [step, Event.onFiles, Write.onFiles, writtenAfter, hok, hpaths, List.mem_singleton,
    and_self, if_true, Write.isImport, Bool.false_eq_true, if_false, hf, Option.map_some]

end FileHistory

/-! ## What a run detects -/

/-- What a row detects that was recorded in the mode `writer` of the file `f₀` under `path`. -/
structure Detects (blake3 : List UInt8 → List UInt8) (disk : Disk) (writer : ChangeDetectionMode)
    (f₀ : FileState) (path : Path) (stored : FileMetadata) : Prop where
  /-- An answer of fresh is right. -/
  sound : ∀ mode io, detectChange (disk.files blake3 io) path stored mode = .ok .fresh →
    ∃ f, disk path = some f ∧ FreshMeans writer f₀ f mode
  /-- No answer depends on a digest of the other kind. -/
  kinds : ∀ mode (files files' : Files), files.metadata path = files'.metadata path →
    (writer = .metadataThenPartialHash →
      files.computePartialHash path = files'.computePartialHash path) →
    (writer.StoresFull → files.computeFullHash path = files'.computeFullHash path) →
    detectChange files path stored mode = detectChange files' path stored mode
  /-- A file that is as it was is fresh in the same mode. -/
  unchanged : ∀ io : Io, disk path = some f₀ → io.metadataError path = none →
    io.contentError path = none →
    detectChange (disk.files blake3 io) path stored writer = .ok .fresh

theorem detects_recorded (hinj : Function.Injective blake3) (disk : Disk)
    (writer : ChangeDetectionMode) (f₀ : FileState) (path : Path) :
    Detects blake3 disk writer f₀ path (recorded blake3 writer f₀) := by
  refine ⟨fun mode io => freshMeans_of_detectChange hinj, ?_, fun io => detectChange_unchanged⟩
  intro mode files files' hmetadata hpart hfull
  refine detectChange_congr hmetadata fun h hhash => ?_
  rcases recorded_hash_cases blake3 writer f₀ with ⟨-, hnone⟩ | ⟨hwriter, hsome⟩ | ⟨hwriter, hsome⟩
  · rw [hnone] at hhash
    exact absurd hhash (by simp)
  · obtain rfl := Option.some.inj (hsome.symm.trans hhash)
    rw [Files.digestFor, Files.digestFor, if_pos (isPartialHash_prefixed _),
      if_pos (isPartialHash_prefixed _), hpart hwriter]
  · obtain rfl := Option.some.inj (hsome.symm.trans hhash)
    have hkind : ¬isPartialHash (toHex (blake3 f₀.content)) = true := by
      rw [isPartialHash_toHex]
      exact Bool.false_ne_true
    rw [Files.digestFor, Files.digestFor, if_neg hkind, if_neg hkind, hfull hwriter]

/-- Over every history of the files and the calls, every row under a key that a `set` wrote last
detects what happened to its file. -/
theorem detects_of_run (hinj : Function.Injective blake3) {db : Db} (hv : db.Valid) (disk : Disk)
    (events : List (FileEvent T)) :
    let h := runFrom (FileHistory.step blake3) (FileHistory.init db disk) events
    ∀ r ∈ h.system.db.files, ∀ writer f₀, h.written r.ns r.path = some (writer, f₀) →
      Detects blake3 h.disk writer f₀ (strBytes r.path) r.metadata := by
  intro h r hr writer f₀ hwritten
  rw [(FileHistory.faithful_of_run hv disk events).rows r hr writer f₀ hwritten]
  exact detects_recorded hinj h.disk writer f₀ _

end Runs

section Samples

/-- BLAKE3 on the empty content, and injective. -/
def blake3OfEmpty (content : List UInt8) : List UInt8 :=
  [0xaf, 0x13, 0x49, 0xb9, 0xf5, 0xf9, 0xa1, 0xa6, 0xa0, 0x40, 0x4d, 0xea, 0x36, 0xdc, 0xc9, 0x49,
    0x9b, 0xcb, 0x25, 0xc9, 0xad, 0xc1, 0x12, 0xb7, 0xcc, 0x9a, 0x93, 0xca, 0xe4, 0x1f, 0x32, 0x62]
    ++ content

theorem injective_blake3OfEmpty : Function.Injective blake3OfEmpty := fun _ _ h =>
  List.append_cancel_left h

/-- An empty file of this time. -/
def FileState.empty (modified : ℤ) : FileState := ⟨[], modified, by decide⟩

/-- Reads return a byte each, and none fails. -/
def Io.quiet : Io := ⟨fun _ => 1, fun _ => none, fun _ => none⟩

/-- `/a` is written with its full hash, and touched. -/
def touchEvents : List (FileEvent Unit) :=
  [.call .metadataThenFullHash .quiet (.write (.plain "n" none) .quiet (.set .rooted [47, 97] ())),
    .edit [47, 97] (some (.empty 1))]

/-- The full hash finds the touched file fresh, and the metadata alone do not. -/
theorem detects_of_run_sample :
    let h := runFrom (FileHistory.step blake3OfEmpty) (.init .empty fun _ => some (.empty 0)) touchEvents
    ∃ r ∈ h.system.db.files, Detects blake3OfEmpty h.disk .metadataThenFullHash (.empty 0)
        (strBytes r.path) r.metadata ∧
      detectChange (h.disk.files blake3OfEmpty .quiet) (strBytes r.path) r.metadata
        .metadataThenFullHash = .ok .fresh ∧
      detectChange (h.disk.files blake3OfEmpty .quiet) (strBytes r.path) r.metadata
        .metadataOnly = .ok .stale := by
  intro h
  have hrow : h.system.db.files = [⟨1, "n", "/a",
      recorded blake3OfEmpty .metadataThenFullHash (.empty 0), 0, 0, 1⟩] := by
    decide +kernel
  refine ⟨_, by rw [hrow]; exact List.mem_singleton_self _, ?_, ?_, ?_⟩
  · refine detects_of_run injective_blake3OfEmpty Db.valid_empty _ touchEvents _ ?_ _ _ ?_
    · show _ ∈ h.system.db.files
      rw [hrow]
      exact List.mem_singleton_self _
    · rfl
  · decide +kernel
  · decide +kernel

end Samples

end LocalCache
