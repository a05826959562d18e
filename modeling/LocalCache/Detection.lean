import LocalCache.Freshness

/-!
# What a mode confirms, and what a diagnosis says of it

`detectChange_eq_fresh` gives for each mode what the file has to answer. The summary of a diagnosis
is built from the metadata and the digest without asking the mode, so the two can disagree : a mode
trusts matching metadata that the digest contradicts, asks for a full hash that is not stored, or
confirms a content whose metadata changed (`Misleads`). Nothing else makes a diagnosis contradict
itself (`neverContradicts_iff`).
-/

namespace LocalCache

/-! ## What a mode confirms -/

section Detection

variable {files : Files} {path : Path} {stored current : FileMetadata} {mode : ChangeDetectionMode}

/-- The digest of the file, by the kind of hash that made `storedHash`. -/
def Files.digestFor (files : Files) (path : Path) (storedHash : String) : Except Error String :=
  if isPartialHash storedHash then files.computePartialHash path else files.computeFullHash path

/-- The file still has the digest that is stored. -/
def DigestAgrees (files : Files) (path : Path) (stored : FileMetadata) : Prop :=
  ∃ h, stored.hash = some h ∧ files.digestFor path h = .ok h

/-- The file has another digest than the one stored. -/
def DigestDiffers (files : Files) (path : Path) (stored : FileMetadata) : Prop :=
  ∃ h h', stored.hash = some h ∧ files.digestFor path h = .ok h' ∧ h' ≠ h

def HoldsFullHash (stored : FileMetadata) : Prop :=
  ∃ h, stored.hash = some h ∧ isPartialHash h = false

/-- What a mode asks of the file, whose metadata are `current`. -/
def Confirms (files : Files) (path : Path) (stored current : FileMetadata) :
    ChangeDetectionMode → Prop
  | .metadataOnly => metadataMatches stored current = true
  | .metadataThenPartialHash =>
    metadataMatches stored current = true ∨
      stored.fileSize = current.fileSize ∧ DigestAgrees files path stored
  | .metadataThenFullHash =>
    metadataMatches stored current = true ∨
      stored.fileSize = current.fileSize ∧ HoldsFullHash stored ∧ DigestAgrees files path stored
  | .strictFullHash => HoldsFullHash stored ∧ DigestAgrees files path stored

theorem freshenIfEqual_eq_fresh {a b : String} : freshenIfEqual a b = .fresh ↔ a = b := by
  unfold freshenIfEqual
  split_ifs with h <;> simp [h]

/-- A comparison with a digest is fresh when the digest is computed and equal. -/
theorem map_freshenIfEqual {digest : Except Error String} {h : String} :
    digest.map (fun h' => freshenIfEqual h' h) = .ok .fresh ↔ digest = .ok h := by
  cases digest with
  | error err => simp [Except.map]
  | ok h' => simp [Except.map, freshenIfEqual_eq_fresh]

theorem compareFullHash_eq_fresh :
    compareFullHash files path stored = .ok .fresh ↔
      HoldsFullHash stored ∧ DigestAgrees files path stored := by
  unfold compareFullHash
  cases hhash : stored.hash with
  | none => simp [HoldsFullHash, hhash]
  | some h =>
    cases hkind : isPartialHash h with
    | true => simp [HoldsFullHash, hhash, hkind]
    | false =>
      simp [HoldsFullHash, DigestAgrees, Files.digestFor, hhash, hkind, map_freshenIfEqual]

theorem detectMetadataThenPartialHash_eq_fresh (h : collectMetadata files path = .ok current) :
    detectMetadataThenPartialHash files path stored = .ok .fresh ↔
      Confirms files path stored current .metadataThenPartialHash := by
  unfold detectMetadataThenPartialHash Confirms
  simp only [bind, Except.bind, pure, Except.pure, h]
  by_cases hmatch : metadataMatches stored current = true
  · simp [hmatch]
  by_cases hsize : stored.fileSize = current.fileSize
  · rw [Bool.not_eq_true] at hmatch
    simp only [hmatch, hsize, Bool.false_eq_true, false_or, ne_eq, not_true_eq_false, if_false,
      true_and]
    cases hhash : stored.hash with
    | none => simp [DigestAgrees, hhash]
    | some storedHash =>
      have hagrees : DigestAgrees files path stored ↔
          files.digestFor path storedHash = .ok storedHash := by
        simp [DigestAgrees, hhash]
      rw [hagrees, Files.digestFor, ← map_freshenIfEqual]
      cases hkind : isPartialHash storedHash with
      | true =>
        simp only [hkind, if_true]
        cases files.computePartialHash path <;> rfl
      | false =>
        simp only [hkind, Bool.false_eq_true, if_false]
        cases files.computeFullHash path <;> rfl
  · simp [hmatch, hsize]

/-- A mode says fresh exactly when the file answers what it asks. Only `strictFullHash` does not
read the metadata. -/
theorem detectChange_eq_fresh (h : collectMetadata files path = .ok current) :
    detectChange files path stored mode = .ok .fresh ↔ Confirms files path stored current mode := by
  cases mode with
  | metadataOnly =>
    simp only [detectChange, detectMetadataOnly, Confirms, bind, Except.bind, pure, Except.pure, h]
    split_ifs with hmatch <;> simp [hmatch]
  | metadataThenPartialHash => exact detectMetadataThenPartialHash_eq_fresh h
  | metadataThenFullHash =>
    simp only [detectChange, detectMetadataThenFullHash, Confirms, bind, Except.bind, pure,
      Except.pure, h]
    by_cases hmatch : metadataMatches stored current = true
    · simp [hmatch]
    by_cases hsize : stored.fileSize = current.fileSize
    · simp [hmatch, hsize, compareFullHash_eq_fresh]
    · simp [hmatch, hsize]
  | strictFullHash => exact compareFullHash_eq_fresh

/-- The mode trusts matching metadata that the digest contradicts, asks for a full hash that is not
stored, or confirms a content whose metadata changed. -/
def Misleads (files : Files) (mode : ChangeDetectionMode) (path : Path)
    (stored current : FileMetadata) : Prop :=
  if metadataMatches stored current then
    match mode with
    | .metadataOnly | .metadataThenPartialHash | .metadataThenFullHash =>
      DigestDiffers files path stored
    | .strictFullHash => ¬HoldsFullHash stored ∧ ¬DigestDiffers files path stored
  else
    match mode with
    | .metadataOnly => False
    | .metadataThenPartialHash =>
      stored.fileSize = current.fileSize ∧ DigestAgrees files path stored
    | .metadataThenFullHash =>
      stored.fileSize = current.fileSize ∧ HoldsFullHash stored ∧ DigestAgrees files path stored
    | .strictFullHash => HoldsFullHash stored ∧ DigestAgrees files path stored

theorem not_differs_of_agrees (h : DigestAgrees files path stored) :
    ¬DigestDiffers files path stored := by
  obtain ⟨storedHash, hhash, hdigest⟩ := h
  rintro ⟨storedHash', newHash, hhash', hdigest', hne⟩
  obtain rfl := Option.some.inj (hhash.symm.trans hhash')
  exact hne (Except.ok.inj (hdigest'.symm.trans hdigest))

/-- A full hash that is computed agrees or differs. -/
theorem compareFullHash_ok {status : CacheStatus}
    (h : compareFullHash files path stored = .ok status) (hfull : HoldsFullHash stored) :
    DigestAgrees files path stored ∨ DigestDiffers files path stored := by
  obtain ⟨storedHash, hhash, hkind⟩ := hfull
  have hdigest : files.digestFor path storedHash = files.computeFullHash path := by
    rw [Files.digestFor, if_neg (by rw [hkind]; exact Bool.false_ne_true)]
  unfold compareFullHash at h
  simp only [hhash, hkind, Bool.false_eq_true, if_false] at h
  cases hnew : files.computeFullHash path with
  | error err => simp [hnew, Except.map] at h
  | ok newHash =>
    by_cases heq : newHash = storedHash
    · exact .inl ⟨storedHash, hhash, by rw [hdigest, hnew, heq]⟩
    · exact .inr ⟨storedHash, newHash, hhash, by rw [hdigest, hnew], heq⟩

theorem compareFullHash_of_not_holdsFull (h : ¬HoldsFullHash stored) :
    compareFullHash files path stored = .ok .stale := by
  unfold compareFullHash
  cases hhash : stored.hash with
  | none => rfl
  | some storedHash =>
    cases hkind : isPartialHash storedHash with
    | true => simp [hkind]
    | false => exact absurd ⟨storedHash, hhash, hkind⟩ h

/-- Matching metadata are enough for every mode but the strict one. -/
theorem confirms_of_matches (hmode : mode ≠ .strictFullHash)
    (hmatch : metadataMatches stored current = true) :
    Confirms files path stored current mode := by
  cases mode with
  | metadataOnly => exact hmatch
  | metadataThenPartialHash => exact .inl hmatch
  | metadataThenFullHash => exact .inl hmatch
  | strictFullHash => exact absurd rfl hmode

theorem misleads_of_matches (hmode : mode ≠ .strictFullHash)
    (hmatch : metadataMatches stored current = true) :
    Misleads files mode path stored current ↔ DigestDiffers files path stored := by
  unfold Misleads
  rw [if_pos hmatch]
  cases mode with
  | metadataOnly => rfl
  | metadataThenPartialHash => rfl
  | metadataThenFullHash => rfl
  | strictFullHash => exact absurd rfl hmode

/-- With other metadata every confirmation misleads. -/
theorem misleads_of_not_matches (hmatch : ¬metadataMatches stored current = true) :
    Misleads files mode path stored current ↔ Confirms files path stored current mode := by
  unfold Misleads
  rw [if_neg hmatch]
  cases mode with
  | metadataOnly => exact ⟨False.elim, hmatch⟩
  | metadataThenPartialHash => exact (or_iff_right hmatch).symm
  | metadataThenFullHash => exact (or_iff_right hmatch).symm
  | strictFullHash => rfl

/-- Matching metadata and no digest against it is what the summary calls fresh. A mode that answers
otherwise misleads. -/
theorem misleads_iff (h : collectMetadata files path = .ok current) :
    Misleads files mode path stored current ↔
      ∃ status, detectChange files path stored mode = .ok status ∧
        ¬(metadataMatches stored current = true ∧ ¬DigestDiffers files path stored ↔
          status = .fresh) := by
  have hconfirms : ∀ {status}, detectChange files path stored mode = .ok status →
      (status = .fresh ↔ Confirms files path stored current mode) := by
    intro status hstatus
    rw [← detectChange_eq_fresh h, hstatus, Except.ok.injEq]
  by_cases hmatch : metadataMatches stored current = true
  · by_cases hmode : mode = .strictFullHash
    · unfold Misleads
      rw [if_pos hmatch, hmode]
      constructor
      · rintro ⟨hfull, hdiffers⟩
        refine ⟨.stale, compareFullHash_of_not_holdsFull hfull, fun hiff => ?_⟩
        exact absurd (hiff.mp ⟨hmatch, hdiffers⟩) (by decide)
      · rintro ⟨status, hstatus, hcontra⟩
        rw [hmode] at hconfirms
        rw [hconfirms hstatus] at hcontra
        have hfull : ¬HoldsFullHash stored := by
          intro hfull
          refine hcontra ⟨fun hfresh => ⟨hfull, ?_⟩, fun hc => ⟨hmatch, not_differs_of_agrees hc.2⟩⟩
          exact (compareFullHash_ok hstatus hfull).resolve_right hfresh.2
        refine ⟨hfull, fun hdiffers => hcontra ?_⟩
        exact ⟨fun hfresh => absurd hdiffers hfresh.2, fun hc => absurd hc.1 hfull⟩
    · have hfresh := (detectChange_eq_fresh h).mpr (confirms_of_matches hmode hmatch)
      rw [misleads_of_matches hmode hmatch]
      constructor
      · intro hdiffers
        exact ⟨.fresh, hfresh, fun hiff => (hiff.mpr rfl).2 hdiffers⟩
      · rintro ⟨status, hstatus, hcontra⟩
        by_contra hdiffers
        obtain rfl := Except.ok.inj (hfresh.symm.trans hstatus)
        exact hcontra ⟨fun _ => rfl, fun _ => ⟨hmatch, hdiffers⟩⟩
  · rw [misleads_of_not_matches hmatch]
    constructor
    · intro hc
      exact ⟨.fresh, (detectChange_eq_fresh h).mpr hc, fun hiff => hmatch (hiff.mpr rfl).1⟩
    · rintro ⟨status, hstatus, hcontra⟩
      by_contra hc
      refine hcontra ⟨fun hfresh => absurd hfresh.1 hmatch, fun hfresh => ?_⟩
      exact absurd ((hconfirms hstatus).mp hfresh) hc

end Detection

/-! ## What a diagnosis says of it -/

section Diagnoses

variable {T : Type} {e : Engine} {src : Sources T} {files : Files} {w : World} {path : Path}
  {now : ℤ} {db : Db} {mode : ChangeDetectionMode}

/-- A text with another beginning. -/
theorem append_ne_of_head {s t u : String} (h : s.toList.head? ≠ u.toList.head?) (hs : s ≠ "") :
    s ++ t ≠ u := by
  rintro rfl
  refine h ?_
  cases hl : s.toList with
  | nil => exact absurd (String.toList_inj.mp hl) hs
  | cons c cs => rw [String.toList_append, hl, List.cons_append, List.head?_cons, List.head?_cons]

theorem metadataChange_eq_none {diff : MetadataDiff} :
    metadataChange (some diff) = none ↔ diff.mtimeChanged = false ∧ diff.sizeChanged = false := by
  obtain ⟨_, _, _, _, mtimeChanged, sizeChanged⟩ := diff
  cases mtimeChanged <;> cases sizeChanged <;> simp [metadataChange]

theorem metadataChange_ne (diff : Option MetadataDiff) :
    metadataChange diff ≠ some "Entry is fresh." := by
  unfold metadataChange
  split
  · exact Option.some_ne_none _ ∘ Eq.symm
  · split <;> decide

/-- The summary of a file that exists says fresh when no earlier reason applies. -/
theorem summarize_eq_fresh {expired mismatch : Bool} {diff : Option MetadataDiff}
    {hm : Option Bool} {row : FileRow} :
    summarize e true expired mismatch (metadataChange diff) hm now row = "Entry is fresh." ↔
      expired = false ∧ mismatch = false ∧ metadataChange diff = none ∧ hm ≠ some false := by
  cases expired with
  | true =>
    refine iff_of_false ?_ (by simp)
    simp only [summarize, String.append_assoc]
    exact append_ne_of_head (by decide) (by decide)
  | false =>
    cases mismatch with
    | true =>
      refine iff_of_false ?_ (by simp)
      simp only [summarize, String.append_assoc]
      exact append_ne_of_head (by decide) (by decide)
    | false =>
      have hne := metadataChange_ne diff
      cases hchange : metadataChange diff with
      | some change =>
        refine iff_of_false ?_ (by simp)
        rintro rfl
        exact hne hchange
      | none =>
        by_cases hm' : hm = some false
        · simp [summarize, hm']
        · simp [summarize, hm']

theorem hashMatch_eq_false {stored : FileMetadata} :
    hashMatch files stored path = some false ↔ DigestDiffers files path stored := by
  unfold hashMatch
  cases hhash : stored.hash with
  | none => simp [DigestDiffers, hhash]
  | some storedHash =>
    have hdiffers : DigestDiffers files path stored ↔
        ∃ newHash, files.digestFor path storedHash = .ok newHash ∧ newHash ≠ storedHash := by
      simp [DigestDiffers, hhash]
    rw [hdiffers]
    change (files.digestFor path storedHash).toOption.map _ = some false ↔ _
    cases files.digestFor path storedHash with
    | error err => simp [Except.toOption]
    | ok newHash => simp [Except.toOption]

/-- Neither the TTL nor the version decides : the content does. -/
def ContentDecides (e : Engine) (now : ℤ) (row : FileRow) : Prop :=
  isExpired now row.updatedAt e.ttl = false ∧
    ¬(e.payloadVersion > 0 ∧ row.payloadVersion ≠ e.payloadVersion)

theorem checkStatusAt_of_row {resolved : ResolvedPathKey} {row : FileRow}
    (hrow : RowOf e src path db resolved row) (hpresent : resolved.present = true)
    (hfault : w.fault 0 = none) (now : ℤ) :
    (ContentDecides e now row ∧
      checkStatusAt e src w path now db = src.detectChange resolved.path row.metadata) ∨
      ¬ContentDecides e now row ∧ checkStatusAt e src w path now db = .ok .stale := by
  have hfind : findFile e w resolved.key db = .ok (some row) := findFile_eq_ok.mpr ⟨hfault, hrow.2⟩
  unfold checkStatusAt ContentDecides isExpired
  simp only [bind, Except.bind, pure, Except.pure, hrow.1, hpresent, hfind, Bool.not_true,
    Bool.false_eq_true, if_false]
  by_cases hexpired : ttlRemaining now row.updatedAt e.ttl = some 0
  · exact .inr ⟨by simp [hexpired], by rw [if_pos hexpired]⟩
  by_cases hversion : e.payloadVersion > 0 ∧ row.payloadVersion ≠ e.payloadVersion
  · exact .inr ⟨fun h => h.2 hversion, by rw [if_neg hexpired, if_pos hversion]⟩
  · exact .inl ⟨⟨by simp [hexpired], hversion⟩, by rw [if_neg hexpired, if_neg hversion]⟩

theorem versionInfo_mismatch (e : Engine) (row : FileRow) :
    ((versionInfo e row).map fun i => !i.matches_).getD false = false ↔
      ¬(e.payloadVersion > 0 ∧ row.payloadVersion ≠ e.payloadVersion) := by
  unfold versionInfo
  split_ifs with h <;> simp [h]

/-- The diagnosis of an entry whose file exists. -/
theorem explainAt_of_row (files : Files) {resolved : ResolvedPathKey} {row : FileRow}
    {current : FileMetadata} {status : CacheStatus} (hrow : RowOf e src path db resolved row)
    (hpresent : resolved.present = true) (hfault : w.fault 0 = none)
    (hcurrent : src.collectMetadata resolved.path = .ok current)
    (hstatus : checkStatusAt e src w.next path now db = .ok status) :
    ∃ d, explainAt e src files w path now db = .ok d ∧ d.entryExists = true ∧ d.fileExists = true ∧
      d.status = status ∧ (d.summary = "Entry is fresh." ↔ ContentDecides e now row ∧
        metadataMatches row.metadata current = true ∧
          ¬DigestDiffers files resolved.path row.metadata) := by
  have hfind : findFile e w resolved.key db = .ok (some row) := findFile_eq_ok.mpr ⟨hfault, hrow.2⟩
  have hcompare : compareFile src files row.metadata resolved =
      .ok (some ⟨row.metadata.mtime, current.mtime, row.metadata.fileSize, current.fileSize,
        decide (row.metadata.mtime ≠ current.mtime),
        decide (row.metadata.fileSize ≠ current.fileSize)⟩,
        hashMatch files row.metadata resolved.path) := by
    simp only [compareFile, bind, Except.bind, pure, Except.pure, hpresent, hcurrent, Bool.not_true,
      Bool.false_eq_true, if_false]
  unfold explainAt
  simp only [bind, Except.bind, pure, Except.pure, hrow.1, hfind, hcompare, hstatus]
  refine ⟨_, rfl, rfl, hpresent, rfl, ?_⟩
  simp only [hpresent]
  have hchange : decide (row.metadata.mtime ≠ current.mtime) = false ∧
      decide (row.metadata.fileSize ≠ current.fileSize) = false ↔
        metadataMatches row.metadata current = true := by
    simp [metadataMatches]
  have hdigest : hashMatch files row.metadata resolved.path ≠ some false ↔
      ¬DigestDiffers files resolved.path row.metadata := not_congr hashMatch_eq_false
  rw [summarize_eq_fresh, metadataChange_eq_none, hchange, hdigest, versionInfo_mismatch,
    ← and_assoc]
  rfl

/-- The status of a file that exists takes a statement. -/
theorem fault_of_checkStatusAt {resolved : ResolvedPathKey} {status : CacheStatus}
    (hres : resolvePathKey src path = .ok resolved) (hpresent : resolved.present = true)
    (h : checkStatusAt e src w path now db = .ok status) : w.fault 0 = none := by
  unfold checkStatusAt at h
  simp only [bind, Except.bind, hres, hpresent, Bool.not_true, Bool.false_eq_true, if_false] at h
  cases hfind : findFile e w resolved.key db with
  | error err => simp [hfind] at h
  | ok found => exact (findFile_eq_ok.mp hfind).1

/-- An entry whose file exists is found through its row, which is read twice. -/
theorem explainAt_inv {d : Diagnosis} (h : explainAt e src files w path now db = .ok d)
    (hentry : d.entryExists = true) (hfile : d.fileExists = true) :
    ∃ resolved row current, RowOf e src path db resolved row ∧ resolved.present = true ∧
      w.fault 0 = none ∧ w.next.fault 0 = none ∧ src.collectMetadata resolved.path = .ok current ∧
      checkStatusAt e src w.next path now db = .ok d.status := by
  obtain ⟨-, resolved, hres, hfault, -⟩ := explainAt_ok h
  unfold explainAt at h
  simp only [bind, Except.bind, pure, Except.pure, hres] at h
  cases hfound : db.find? e.ns resolved.key with
  | none =>
    rw [findFile_eq_ok.mpr ⟨hfault, hfound⟩] at h
    rw [← Except.ok.inj h] at hentry
    exact absurd hentry Bool.false_ne_true
  | some row =>
    rw [findFile_eq_ok.mpr ⟨hfault, hfound⟩] at h
    simp only at h
    cases hcompare : compareFile src files row.metadata resolved with
    | error err => simp [hcompare] at h
    | ok compared =>
      simp only [hcompare] at h
      cases hstatus : checkStatusAt e src w.next path now db with
      | error err => simp [hstatus] at h
      | ok status =>
        simp only [hstatus] at h
        rw [← Except.ok.inj h] at hfile
        have hpresent : resolved.present = true := hfile
        have hfault' := fault_of_checkStatusAt hres hpresent hstatus
        cases hcurrent : src.collectMetadata resolved.path with
        | error err =>
          simp [compareFile, bind, Except.bind, hpresent, hcurrent] at hcompare
        | ok current =>
          refine ⟨resolved, row, current, ⟨hres, hfound⟩, hpresent, hfault, hfault', hcurrent, ?_⟩
          rw [← Except.ok.inj h]

/-- A diagnosis of an entry whose file exists says fresh in its summary exactly when it says so in
its status. -/
def NeverContradicts (e : Engine) (src : Sources T) (files : Files) (w : World) (path : Path)
    (now : ℤ) (db : Db) : Prop :=
  ∀ d, explainAt e src files w path now db = .ok d → d.entryExists = true → d.fileExists = true →
    (d.summary = "Entry is fresh." ↔ d.status = .fresh)

/-- A diagnosis contradicts itself exactly when the content decides and the mode misleads. -/
theorem neverContradicts_iff (e : Engine) (src : Sources T) (files : Files) (w : World)
    (path : Path) (now : ℤ) (db : Db) (mode : ChangeDetectionMode) :
    NeverContradicts e (src.onFiles files mode) files w path now db ↔
      ∀ resolved row current, RowOf e src path db resolved row → resolved.present = true →
        w.fault 0 = none → w.fault 1 = none → collectMetadata files resolved.path = .ok current →
        ContentDecides e now row → ¬Misleads files mode resolved.path row.metadata current := by
  constructor
  · intro h resolved row current hrow hpresent hfault hfault' hcurrent hdecides hmisleads
    obtain ⟨status, hdetect, hcontra⟩ := (misleads_iff hcurrent).mp hmisleads
    have hrow' : RowOf e (src.onFiles files mode) path db resolved row := hrow
    have hstatus : checkStatusAt e (src.onFiles files mode) w.next path now db = .ok status := by
      rcases checkStatusAt_of_row hrow' hpresent (w := w.next) hfault' now with ⟨-, heq⟩ | ⟨hnot, -⟩
      · exact heq.trans hdetect
      · exact absurd hdecides hnot
    obtain ⟨d, hd, hentry, hfile, hs, hsummary⟩ :=
      explainAt_of_row files hrow' hpresent hfault hcurrent hstatus
    have hiff := h d hd hentry hfile
    rw [hsummary, hs, and_iff_right hdecides] at hiff
    exact hcontra hiff
  · intro h d hd hentry hfile
    obtain ⟨resolved, row, current, hrow, hpresent, hfault, hfault', hcurrent, hstatus⟩ :=
      explainAt_inv hd hentry hfile
    obtain ⟨d', hd', -, -, -, hsummary⟩ :=
      explainAt_of_row files hrow hpresent hfault hcurrent hstatus
    obtain rfl := Except.ok.inj (hd.symm.trans hd')
    rw [hsummary]
    rcases checkStatusAt_of_row hrow hpresent hfault' now with ⟨hdecides, heq⟩ | ⟨hnot, heq⟩
    · have hnot := h resolved row current hrow hpresent hfault hfault' hcurrent hdecides
      rw [misleads_iff hcurrent] at hnot
      rw [and_iff_right hdecides]
      by_contra hcontra
      exact hnot ⟨d.status, heq.symm.trans hstatus, hcontra⟩
    · rw [Except.ok.inj (hstatus.symm.trans heq)]
      exact iff_of_false (fun hc => hnot hc.1) (by decide)

end Diagnoses

section Samples

/-- The empty files after a `touch`. -/
def Files.touched : Files := { Files.empty with metadata := fun _ => .ok (1, 0) }

/-- The database after one `set` of `/a` in this mode. -/
def setOnce (mode : ChangeDetectionMode) : Db :=
  ((System.init Db.empty).run
    [.write (.plain "n" none) .quiet (.set (Sources.rooted.onFiles .empty mode) [47, 97] ())]).db

/-- A file is touched after it was stored with its full hash : the status is fresh, and the summary
names a change. An entry stored without a hash is stale for the strict mode, and the summary says
fresh. -/
theorem touchedFile_contradicts :
    ¬NeverContradicts (.plain "n" none) (Sources.rooted.onFiles .touched .metadataThenFullHash)
        .touched .quiet [47, 97] 0 (setOnce .metadataThenFullHash) ∧
      ¬NeverContradicts (.plain "n" none) (Sources.rooted.onFiles .empty .strictFullHash) .empty
        .quiet [47, 97] 0 (setOnce .metadataOnly) := by
  have htouched : explainAt (.plain "n" none)
      (Sources.rooted.onFiles .touched .metadataThenFullHash) .touched .quiet [47, 97] 0
        (setOnce .metadataThenFullHash) =
      .ok ⟨[47, 97], .fresh, true, true, none, some true, some ⟨0, 1, 0, 0, true, false⟩, none,
        "mtime changed; file_size unchanged."⟩ := by decide
  have hstrict : explainAt (.plain "n" none) (Sources.rooted.onFiles .empty .strictFullHash) .empty
      .quiet [47, 97] 0 (setOnce .metadataOnly) =
      .ok ⟨[47, 97], .stale, true, true, none, none, some ⟨0, 0, 0, 0, false, false⟩, none,
        "Entry is fresh."⟩ := by decide
  exact ⟨fun h => absurd ((h _ htouched rfl rfl).mpr rfl) (by decide),
    fun h => absurd ((h _ hstrict rfl rfl).mp rfl) (by decide)⟩

end Samples

end LocalCache
