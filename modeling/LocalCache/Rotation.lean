import LocalCache.Engine
import LocalCache.Keyset

/-!
# Key rotation

`rotateEncryptionKey` reads and rewrites the payloads of a namespace page by page, inside one
transaction, and replaces the engine's key after the commit. A page ends at a number of rows
or of bytes, so its size is not known before it is read.

The loop runs on the payloads of the namespace in path order (`namespacePayloads`). Its
invariant cuts that list at the cursor : the rows before it are re-sealed once, the rows
after it are as they were (`RotatedUpTo`). Paths are not empty, so the first cursor is below
them all.
-/

namespace LocalCache

/-- A row of a page of payloads. -/
structure PayloadPageRow where
  fileId : ℕ
  path : String
  encoding : String
  content : List UInt8
  deriving DecidableEq, Repr

namespace Sql

/-- The join of a file with its payload. -/
def joinPayload (db : Db) (f : FileRow) : Option PayloadPageRow :=
  (db.payloads.find? fun p => p.fileId = f.id).map fun p =>
    ⟨p.fileId, f.path, p.encoding, p.content⟩

/-- `PAYLOAD_PAGE_SQL`. -/
def payloadsAfter (ns after : String) (limit : ℕ) (db : Db) : List PayloadPageRow :=
  limitRows limit (sortBy (fun r => textKey r.path)
    (((db.inNamespace ns).filterMap (joinPayload db)).filter fun r =>
      textKey after < textKey r.path))

end Sql

/-- Errors of the format layer, lifted. -/
def Error.ofFormat : FormatError → Error
  | .io text => .io text
  | .serialization text => .serialization text
  | .unknownEncoding tag => .unknownEncoding tag
  | .payloadTooLarge limit => .payloadTooLarge limit
  | .encryptionError text => .encryptionError text
  | .missingEncryptionKey => .missingEncryptionKey
  | .unsealedEntry => .unsealedEntry

/-- Rows up to the one whose content reaches `maxBytes`, in a `usize`. -/
def takePage (maxBytes : ℕ) : (bytes : ℕ) → List PayloadPageRow → List PayloadPageRow
  | _, [] => []
  | bytes, r :: rows =>
    let bytes := min (bytes + r.content.length) (2 ^ 64 - 1)
    if bytes ≥ maxBytes then [r] else r :: takePage maxBytes bytes rows

/-- What a rotation did : its result, the database and the engine's key after it, and, as a
history variable, how many statements a successful one ran. -/
structure RotationOutcome where
  result : Except Error ℕ
  db : Db
  key : Option Key
  statements : ℕ

section Rotate

variable (f : Features) (A : Aead) (nonces : ℕ → Option Nonce) (e : Engine) (w : World)
  (maxRows maxBytes : ℕ)

def loadPayloadPage (after : String) : TxM (List PayloadPageRow) := do
  let rows ← select w (Sql.payloadsAfter e.ns after maxRows)
  pure (takePage maxBytes 0 rows)

/-- Re-seal the rows of a page. The `n`th re-sealing of a rotation draws the `n`th nonce. -/
def resealPage (old new : Key) : (n : ℕ) → List PayloadPageRow → Except Error (List PayloadRow)
  | _, [] => .ok []
  | n, row :: rows => do
    let resealed ← ((reseal f A (nonces n) row.content row.encoding row.path old new).result).mapError
      Error.ofFormat
    let updates ← resealPage old new (n + 1) rows
    return ⟨row.fileId, resealed.bytes, resealed.tag⟩ :: updates

def updatePayloadContent (p : PayloadRow) : TxM Unit :=
  execute w databaseError fun _ db => .ok (Sql.updatePayload p db)

/-- The paging loop : the number of rows re-sealed, or `none` when the fuel runs out first. -/
def rotatePages (old new : Key) : (fuel : ℕ) → (after : String) → (total : ℕ) → TxM (Option ℕ)
  | 0, _, _ => pure none
  | fuel + 1, after, total => do
    let page ← loadPayloadPage e w maxRows maxBytes after
    match page.getLast? with
    | none => pure (some total)
    | some last =>
      let updates ← StateExcept.ofExcept (resealPage f A nonces old new total page)
      let _ ← StateExcept.forEach (updatePayloadContent w) updates
      rotatePages old new fuel last.path (total + updates.length)

/-- The number of statements so far, for the history variable. -/
def statementsSoFar : TxM ℕ := fun t => .ok (t.statements, t)

/-- Re-seal every payload of the namespace under `newKey`. `none` when the fuel runs out. -/
def rotateEncryptionKey (fuel : ℕ) (newKey : List UInt8) (db : Db) : Option RotationOutcome :=
  if e.readOnly then some ⟨.error .readOnly, db, e.encryptionKey, 0⟩
  else
    match e.encryptionKey with
    | none => some ⟨.error .missingEncryptionKey, db, e.encryptionKey, 0⟩
    | some old =>
      match Key.fromSlice newKey with
      | none => some ⟨.error (.invalidArgument "new_key"
          ("must be exactly 32 bytes, got " ++ toString newKey.length)), db, e.encryptionKey, 0⟩
      | some new =>
        let body : TxM (Option ℕ × ℕ) := do
          let total ← rotatePages f A nonces e w maxRows maxBytes old new fuel "" 0
          let statements ← statementsSoFar
          pure (total, statements)
        match transaction w body db with
        | (.ok (none, _), _) => none
        | (.ok (some total, statements), db) => some ⟨.ok total, db, some new, statements + 1⟩
        | (.error err, db) => some ⟨.error err, db, e.encryptionKey, 0⟩

end Rotate

/-! ## The payloads of a namespace, in path order -/

theorem textKey_injective : Function.Injective textKey := fun _ _ h =>
  strBytes_injective (List.map_injective_iff.mpr (fun _ _ h => UInt8.toNat_inj.mp h) h)

theorem textKey_empty_lt {s : String} (h : s ≠ "") : textKey "" < textKey s := by
  have hne : textKey s ≠ [] := fun hnil => h (textKey_injective hnil)
  cases hkey : textKey s with
  | nil => exact absurd hkey hne
  | cons a l => exact List.nil_lt_cons a l

/-- The rows the loop pages over. -/
def namespacePayloads (ns : String) (db : Db) : List PayloadPageRow :=
  sortBy (fun r => textKey r.path) ((db.inNamespace ns).filterMap (Sql.joinPayload db))

section View

variable {db : Db} {ns : String} {row row' : PayloadPageRow}

theorem joinPayload_eq_some (hv : db.Valid) {file : FileRow} :
    Sql.joinPayload db file = some row ↔ ∃ p ∈ db.payloads, p.fileId = file.id ∧
      row = ⟨p.fileId, file.path, p.encoding, p.content⟩ := by
  simp only [Sql.joinPayload, Option.map_eq_some_iff]
  constructor
  · rintro ⟨p, hp, rfl⟩
    exact ⟨p, List.mem_of_find?_eq_some hp, by simpa using List.find?_some hp, rfl⟩
  · rintro ⟨p, hp, hid, rfl⟩
    refine ⟨p, ?_, rfl⟩
    cases hfind : db.payloads.find? fun p => p.fileId = file.id with
    | none => exact absurd hid (by simpa using List.find?_eq_none.mp hfind p hp)
    | some q =>
      have hqid : q.fileId = file.id := by simpa using List.find?_some hfind
      rw [List.inj_on_of_nodup_map hv.payloadIds hp (List.mem_of_find?_eq_some hfind)
        (hid.trans hqid.symm)]

theorem mem_namespacePayloads (hv : db.Valid) :
    row ∈ namespacePayloads ns db ↔ ∃ file ∈ db.files, file.ns = ns ∧ ∃ p ∈ db.payloads,
      p.fileId = file.id ∧ row = ⟨p.fileId, file.path, p.encoding, p.content⟩ := by
  simp only [namespacePayloads, mem_sortBy, List.mem_filterMap, Db.mem_inNamespace,
    joinPayload_eq_some hv, and_assoc]

/-- A payload row of the namespace has one path, and a path one row. -/
theorem eq_of_mem_namespacePayloads (hv : db.Valid) (hr : row ∈ namespacePayloads ns db)
    (hr' : row' ∈ namespacePayloads ns db)
    (h : row.fileId = row'.fileId ∨ row.path = row'.path) : row = row' := by
  obtain ⟨file, hfile, hns, p, hp, hid, rfl⟩ := (mem_namespacePayloads hv).mp hr
  obtain ⟨file', hfile', hns', p', hp', hid', rfl⟩ := (mem_namespacePayloads hv).mp hr'
  obtain rfl : file = file' := by
    rcases h with h | h
    · exact hv.eq_of_id hfile hfile' (hid.symm.trans (h.trans hid'))
    · exact hv.eq_of_hasKey hfile hfile' ⟨hns, rfl⟩ ⟨hns', h.symm⟩
  rw [List.inj_on_of_nodup_map hv.payloadIds hp hp' (hid.trans hid'.symm)]

theorem nodup_joined (hv : db.Valid) :
    (((db.inNamespace ns).filterMap (Sql.joinPayload db)).map fun r => textKey r.path).Nodup := by
  refine List.pairwise_map.mpr (List.pairwise_filterMap.mpr ((hv.nodup.filter _).imp_of_mem ?_))
  intro file file' hfile hfile' hne row hrow row' hrow' hkey
  obtain ⟨p, -, -, rfl⟩ := (joinPayload_eq_some hv).mp hrow
  obtain ⟨p', -, -, rfl⟩ := (joinPayload_eq_some hv).mp hrow'
  obtain ⟨hfile, hns⟩ := Db.mem_inNamespace.mp hfile
  obtain ⟨hfile', hns'⟩ := Db.mem_inNamespace.mp hfile'
  exact hne (hv.eq_of_hasKey hfile hfile' ⟨hns, rfl⟩ ⟨hns', (textKey_injective hkey).symm⟩)

theorem pairwise_namespacePayloads (hv : db.Valid) :
    (namespacePayloads ns db).Pairwise fun a b => textKey a.path < textKey b.path :=
  pairwise_sortBy_lt _ (nodup_joined hv)

theorem nodup_fileId (hv : db.Valid) : ((namespacePayloads ns db).map (·.fileId)).Nodup := by
  refine List.pairwise_map.mpr ((pairwise_namespacePayloads hv).imp_of_mem ?_)
  intro row row' hr hr' hlt hid
  rw [eq_of_mem_namespacePayloads hv hr hr' (Or.inl hid)] at hlt
  exact lt_irrefl _ hlt

/-- A page is read from the rows above the cursor. -/
theorem payloadsAfter_eq (hv : db.Valid) (after : String) (limit : ℕ) :
    Sql.payloadsAfter ns after limit db = Sql.limitRows limit
      ((namespacePayloads ns db).filter fun r => textKey after < textKey r.path) := by
  rw [Sql.payloadsAfter, sortBy_filter (nodup_joined hv)]
  rfl

end View

/-! ## Rewriting payloads -/

/-- The row with the update of its id, if there is one. -/
def overwrite (updates : List PayloadRow) (p : PayloadRow) : PayloadRow :=
  (updates.find? fun u => u.fileId = p.fileId).getD p

/-- The database with these updates. -/
def rewritten (db : Db) (updates : List PayloadRow) : Db :=
  { db with payloads := db.payloads.map (overwrite updates) }

section Rewriting

variable {db : Db} {ns : String} {updates : List PayloadRow}

@[simp] theorem fileId_overwrite (p : PayloadRow) : (overwrite updates p).fileId = p.fileId := by
  unfold overwrite
  cases hfind : updates.find? fun u => u.fileId = p.fileId with
  | none => rfl
  | some u => simpa using List.find?_some hfind

theorem overwrite_of_notMem {p : PayloadRow} (h : p.fileId ∉ updates.map PayloadRow.fileId) :
    overwrite updates p = p := by
  unfold overwrite
  rw [List.find?_eq_none.mpr]
  · rfl
  · intro u hu
    have hne : u.fileId ≠ p.fileId := fun heq => h (heq ▸ List.mem_map_of_mem hu)
    simpa using hne

theorem overwrite_of_mem (hnodup : (updates.map PayloadRow.fileId).Nodup) {u p : PayloadRow}
    (hu : u ∈ updates) (hid : u.fileId = p.fileId) : overwrite updates p = u := by
  unfold overwrite
  cases hfind : updates.find? fun u => u.fileId = p.fileId with
  | none => exact absurd hid (by simpa using List.find?_eq_none.mp hfind u hu)
  | some u' =>
    have hid' : u'.fileId = p.fileId := by simpa using List.find?_some hfind
    exact List.inj_on_of_nodup_map hnodup (List.mem_of_find?_eq_some hfind) hu
      (hid'.trans hid.symm)

/-- One more update, of a row not updated yet. -/
theorem updatePayload_rewritten {u : PayloadRow} (hu : u.fileId ∉ updates.map PayloadRow.fileId) :
    Sql.updatePayload u (rewritten db updates) = rewritten db (updates ++ [u]) := by
  unfold Sql.updatePayload rewritten
  simp only [List.map_map]
  congr 1
  refine List.map_congr_left fun p _ => ?_
  rw [Function.comp_apply, fileId_overwrite]
  by_cases hid : p.fileId = u.fileId
  · rw [if_pos hid, overwrite, List.find?_append, List.find?_eq_none.mpr]
    · simp [hid]
    · intro q hq
      have hne : q.fileId ≠ p.fileId := fun heq => hu (hid ▸ heq ▸ List.mem_map_of_mem hq)
      simpa using hne
  · rw [if_neg hid, overwrite, overwrite, List.find?_append]
    simp [Ne.symm hid]

theorem valid_rewritten (hv : db.Valid) : (rewritten db updates).Valid := by
  have hids : (rewritten db updates).payloads.map PayloadRow.fileId =
      db.payloads.map PayloadRow.fileId := by
    simp [rewritten, List.map_map, Function.comp_def]
  refine ⟨hv.ids, hv.keys, hids ▸ hv.payloadIds, fun p hp => ?_, hv.seq⟩
  obtain ⟨q, hq, rfl⟩ := List.mem_map.mp hp
  rw [fileId_overwrite]
  exact hv.foreign q hq

/-- Rows above the cursor are as they were, when only rows up to it are updated. -/
theorem filter_namespacePayloads_rewritten (hv : db.Valid) {after : String}
    {done rest : List PayloadPageRow}
    (hcut : Cut (fun r => textKey r.path) (namespacePayloads ns db) (textKey after) done rest)
    (hids : updates.map PayloadRow.fileId = done.map (·.fileId)) :
    ((namespacePayloads ns (rewritten db updates)).filter fun r =>
      textKey after < textKey r.path) = rest := by
  have hmem : ∀ row, row ∈ namespacePayloads ns db ↔ row ∈ done ∨ row ∈ rest := fun row => by
    rw [hcut.eq, List.mem_append]
  have hnot : ∀ row ∈ rest, row.fileId ∉ updates.map PayloadRow.fileId := by
    intro row hrow hid
    rw [hids] at hid
    obtain ⟨d, hd, hid⟩ := List.mem_map.mp hid
    obtain rfl := eq_of_mem_namespacePayloads hv ((hmem d).mpr (Or.inl hd))
      ((hmem row).mpr (Or.inr hrow)) (Or.inl hid)
    exact absurd (hcut.lt d hrow) (not_lt.mpr (hcut.le d hd))
  have hsorted : (namespacePayloads ns db).Pairwise _ := pairwise_namespacePayloads hv
  rw [hcut.eq] at hsorted
  have hfiltered : ((namespacePayloads ns (rewritten db updates)).filter fun r =>
      textKey after < textKey r.path).Pairwise fun a b => textKey a.path < textKey b.path :=
    (pairwise_namespacePayloads (valid_rewritten hv)).sublist List.filter_sublist
  refine eq_of_pairwise_lt (fun r : PayloadPageRow => textKey r.path) hfiltered
    (List.pairwise_append.mp hsorted).2.1 fun row => ?_
  rw [List.mem_filter, mem_namespacePayloads (valid_rewritten hv), decide_eq_true_eq]
  constructor
  · rintro ⟨⟨file, hfile, hns, p, hp, hid, rfl⟩, hlt⟩
    obtain ⟨q, hq, rfl⟩ := List.mem_map.mp hp
    rw [fileId_overwrite] at hid
    have hrow : ⟨q.fileId, file.path, q.encoding, q.content⟩ ∈ namespacePayloads ns db :=
      (mem_namespacePayloads hv).mpr ⟨file, hfile, hns, q, hq, hid, rfl⟩
    rcases (hmem _).mp hrow with hdone | hrest
    · exact absurd (hcut.le _ hdone) (not_le.mpr hlt)
    · rw [overwrite_of_notMem (hnot _ hrest)]
      exact hrest
  · intro hrest
    refine ⟨?_, hcut.lt row hrest⟩
    obtain ⟨file, hfile, hns, p, hp, hid, rfl⟩ :=
      (mem_namespacePayloads hv).mp ((hmem row).mpr (Or.inr hrest))
    refine ⟨file, hfile, hns, p, ?_, hid, rfl⟩
    exact List.mem_map.mpr ⟨p, hp, overwrite_of_notMem (hnot _ hrest)⟩

end Rewriting

/-! ## Re-sealing a row -/

/-- The plaintext of a stored payload, a plain one's own bytes. -/
def plaintextOf (A : Aead) (content : List UInt8) (tag path : String) (key : Key) :
    Except FormatError (List UInt8) :=
  match (parseTag tag).2 with
  | .plain => .ok content
  | .unbound => decryptBytes A content key []
  | .bound => decryptBytes A content key (associatedData tag path)

/-- `p'` is `p` re-sealed : it has the bound tag of its base, and a reader with the new key
gets through the gate, at its path, with the plaintext it had. -/
structure Resealed (f : Features) (A : Aead) (old new : Key) (path : String)
    (p p' : PayloadRow) : Prop where
  fileId : p'.fileId = p.fileId
  tag : boundTag f (parseTag p.encoding).1 = some p'.encoding
  opens : ∃ plain, plaintextOf A p.content p.encoding path old = .ok plain ∧
    decodeGate f A p'.content p'.encoding path (some new) = .ok ⟨plain, (parseTag p.encoding).1⟩

section Reseal

variable {f : Features} {A : Aead} {old new : Key}

/-- What a re-sealing that succeeded did. -/
theorem reseal_ok {nonce : Option Nonce} {content : List UInt8} {tag path : String} {r : Encoded}
    (h : (reseal f A nonce content tag path old new).result = .ok r) :
    boundTag f (parseTag tag).1 = some r.tag ∧ ∃ plain n cipher,
      plaintextOf A content tag path old = .ok plain ∧
        A.encrypt new n (associatedData r.tag path) plain = some cipher ∧
          r.bytes = n.bytes ++ cipher := by
  unfold reseal at h
  simp only at h
  split_ifs at h with hbase
  · exact absurd h (by simp)
  cases htag : boundTag f (parseTag tag).1 with
  | none =>
    rw [htag] at h
    exact absurd h (by simp)
  | some newTag =>
    rw [htag] at h
    simp only at h
    rw [SealM.result_bind_ofExcept] at h
    change (plaintextOf A content tag path old >>= fun plain => SealM.result (do
      let sealed ← encryptBytes A nonce plain new (associatedData newTag path)
      return (⟨sealed, newTag⟩ : Encoded))) = .ok r at h
    cases hplain : plaintextOf A content tag path old with
    | error e =>
      rw [hplain] at h
      exact absurd h (by simp [bind, Except.bind])
    | ok plain =>
      rw [hplain] at h
      rcases hseal : encryptBytes A nonce plain new (associatedData newTag path) [] with
        ⟨result, calls⟩
      cases result with
      | error e =>
        have herr := congrArg Prod.fst (SealM.bind_of_error (f := fun sealed =>
          (pure ⟨sealed, newTag⟩ : SealM Encoded)) hseal)
        exact absurd (herr.symm.trans h) (by simp)
      | ok bytes =>
        have hok := congrArg Prod.fst (SealM.bind_of_ok (f := fun sealed =>
          (pure ⟨sealed, newTag⟩ : SealM Encoded)) hseal)
        obtain rfl := Except.ok.inj (hok.symm.trans h)
        obtain ⟨n, cipher, hc, rfl, -⟩ := encryptBytes_ok hseal
        exact ⟨rfl, plain, n, cipher, rfl, hc, rfl⟩

/-- A row re-sealed, with an AEAD that opens what it sealed. -/
theorem resealed_of_reseal
    (hA : ∀ key nonce aad plain cipher, A.encrypt key nonce aad plain = some cipher →
      A.decrypt key nonce aad cipher = some plain)
    {nonce : Option Nonce} {p : PayloadRow} {path : String} {r : Encoded}
    (h : (reseal f A nonce p.content p.encoding path old new).result = .ok r) :
    Resealed f A old new path p ⟨p.fileId, r.bytes, r.tag⟩ := by
  obtain ⟨htag, plain, n, cipher, hplain, hc, hbytes⟩ := reseal_ok h
  refine ⟨rfl, htag, plain, hplain, ?_⟩
  have hopen := decryptBytes_append (hA _ _ _ _ _ hc)
  unfold decodeGate
  rw [parseTag_of_boundTag htag, hbytes]
  simp [(boundTag_eq_some.mp htag).1, hopen, bind, Except.bind, pure, Except.pure]

end Reseal

/-! ## The loop -/

theorem takePage_isPrefix (maxBytes : ℕ) : ∀ (bytes : ℕ) (rows : List PayloadPageRow),
    takePage maxBytes bytes rows <+: rows
  | _, [] => List.prefix_refl []
  | bytes, r :: rows => by
    unfold takePage
    simp only
    split_ifs
    · exact ⟨rows, rfl⟩
    · exact List.cons_prefix_cons.mpr ⟨rfl, takePage_isPrefix maxBytes _ rows⟩

theorem takePage_ne_nil {maxBytes bytes : ℕ} {rows : List PayloadPageRow} (h : rows ≠ []) :
    takePage maxBytes bytes rows ≠ [] := by
  cases rows with
  | nil => exact absurd rfl h
  | cons r rows =>
    unfold takePage
    simp only
    split_ifs <;> simp

section Loop

variable {f : Features} {A : Aead} {nonces : ℕ → Option Nonce} {e : Engine} {w : World}
  {maxRows maxBytes : ℕ} {old new : Key} {db : Db}

/-- A page is some first rows above the cursor, and has a row if there is one. -/
theorem loadPayloadPage_ok (hv : db.Valid) (hrows : 1 ≤ maxRows) {updates : List PayloadRow}
    {after : String} {done rest page : List PayloadPageRow} {t t' : Tx}
    (ht : t.db = rewritten db updates)
    (hcut : Cut (fun r => textKey r.path) (namespacePayloads e.ns db) (textKey after) done rest)
    (hids : updates.map PayloadRow.fileId = done.map (·.fileId))
    (h : loadPayloadPage e w maxRows maxBytes after t = .ok (page, t')) :
    (∃ rest', rest = page ++ rest') ∧ (rest ≠ [] → page ≠ []) ∧ t'.db = t.db := by
  obtain ⟨rows, hselect, rfl⟩ := StateExcept.map_eq_ok h
  obtain ⟨rfl, hdb, -⟩ := select_ok hselect
  rw [ht, payloadsAfter_eq (valid_rewritten hv), filter_namespacePayloads_rewritten hv hcut hids,
    ← ht]
  refine ⟨?_, fun hne => takePage_ne_nil (Sql.limitRows_ne_nil hrows hne), hdb⟩
  obtain ⟨rest', heq⟩ := (takePage_isPrefix maxBytes 0 _).trans
    (Sql.limitRows_isPrefix maxRows rest)
  exact ⟨rest', heq.symm⟩

/-- The updates re-seal the rows of a page, one for each. -/
def ResealsPage (f : Features) (A : Aead) (old new : Key) : List PayloadPageRow →
    List PayloadRow → Prop :=
  List.Forall₂ fun row u => Resealed f A old new row.path ⟨row.fileId, row.content, row.encoding⟩ u

theorem ResealsPage.fileIds {page : List PayloadPageRow} {updates : List PayloadRow}
    (h : ResealsPage f A old new page updates) :
    updates.map PayloadRow.fileId = page.map (·.fileId) := by
  induction h with
  | nil => rfl
  | cons hrow _ ih => rw [List.map_cons, List.map_cons, ih, hrow.fileId]

theorem resealPage_ok
    (hA : ∀ key nonce aad plain cipher, A.encrypt key nonce aad plain = some cipher →
      A.decrypt key nonce aad cipher = some plain) :
    ∀ {n : ℕ} {page : List PayloadPageRow} {updates : List PayloadRow},
      resealPage f A nonces old new n page = .ok updates → ResealsPage f A old new page updates
  | _, [], _, h => by
    obtain rfl := Except.ok.inj h
    exact .nil
  | n, row :: page, updates, h => by
    unfold resealPage at h
    cases hr : (reseal f A (nonces n) row.content row.encoding row.path old new).result with
    | error err =>
      rw [hr] at h
      exact absurd h (by simp [bind, Except.bind, Except.mapError])
    | ok r =>
      cases hrest : resealPage f A nonces old new (n + 1) page with
      | error err =>
        rw [hr, hrest] at h
        exact absurd h (by simp [bind, Except.bind, Except.mapError])
      | ok rest =>
        rw [hr, hrest] at h
        obtain rfl := Except.ok.inj h
        exact .cons (resealed_of_reseal (p := ⟨row.fileId, row.content, row.encoding⟩) hA hr)
          (resealPage_ok hA hrest)

/-- The updates of a page, one after another. -/
theorem updatePage_ok : ∀ {updates done : List PayloadRow} {us : List Unit} {t t' : Tx},
    ((done ++ updates).map PayloadRow.fileId).Nodup → t.db = rewritten db done →
      StateExcept.forEach (updatePayloadContent w) updates t = .ok (us, t') →
        t'.db = rewritten db (done ++ updates)
  | [], done, _, _, _, _, ht, h => by
    obtain ⟨-, rfl⟩ := StateExcept.pure_eq_ok h
    rw [ht, List.append_nil]
  | u :: updates, done, _, t, _, hnodup, ht, h => by
    obtain ⟨_, t₁, h₁, h⟩ := StateExcept.bind_eq_ok h
    obtain ⟨us, t₂, hrest, h⟩ := StateExcept.bind_eq_ok h
    obtain ⟨-, rfl⟩ := StateExcept.pure_eq_ok h
    obtain ⟨gap, hrun, -⟩ := execute_ok h₁
    have hu : u.fileId ∉ done.map PayloadRow.fileId := by
      rw [List.map_append, List.map_cons] at hnodup
      exact fun hmem => List.disjoint_of_nodup_append hnodup hmem List.mem_cons_self
    have hdb : t₁.db = rewritten db (done ++ [u]) := by
      rw [← updatePayload_rewritten hu, ← ht]
      exact (Except.ok.inj hrun).symm
    rw [List.append_cons] at hnodup ⊢
    exact updatePage_ok hnodup hdb hrest

/-- The invariant of the loop : the rows up to the cursor are re-sealed, each once, and they
are counted. -/
structure RotatedUpTo (f : Features) (A : Aead) (old new : Key) (ns : String) (db : Db)
    (after : String) (done rest : List PayloadPageRow) (updates : List PayloadRow)
    (t : Tx) : Prop where
  state : t.db = rewritten db updates
  cut : Cut (fun r => textKey r.path) (namespacePayloads ns db) (textKey after) done rest
  reseals : ResealsPage f A old new done updates

/-- With fuel for a page for each row left and one more, the loop ends with every row
re-sealed. -/
theorem rotatePages_ok (hv : db.Valid) (hrows : 1 ≤ maxRows)
    (hA : ∀ key nonce aad plain cipher, A.encrypt key nonce aad plain = some cipher →
      A.decrypt key nonce aad cipher = some plain) :
    ∀ {fuel total : ℕ} {after : String} {done rest : List PayloadPageRow}
      {updates : List PayloadRow} {t t' : Tx} {result : Option ℕ},
      RotatedUpTo f A old new e.ns db after done rest updates t → total = done.length →
        rest.length < fuel →
          rotatePages f A nonces e w maxRows maxBytes old new fuel after total t =
            .ok (result, t') →
            result = some (namespacePayloads e.ns db).length ∧ ∃ updates,
              ResealsPage f A old new (namespacePayloads e.ns db) updates ∧
                t'.db = rewritten db updates
  | 0, _, _, _, _, _, _, _, _, _, _, hfuel, _ => absurd hfuel (by omega)
  | fuel + 1, total, after, done, rest, updates, t, t', result, hinv, htotal, hfuel, h => by
    obtain ⟨page, t₁, hload, h⟩ := StateExcept.bind_eq_ok h
    obtain ⟨⟨rest', rfl⟩, hne, hdb⟩ := loadPayloadPage_ok hv hrows hinv.state hinv.cut
      hinv.reseals.fileIds hload
    cases hlast : page.getLast? with
    | none =>
      -- the page is empty, so nothing is left
      obtain rfl := List.getLast?_eq_none_iff.mp hlast
      obtain rfl : rest' = [] := by
        by_contra hrest
        exact hne hrest rfl
      rw [hlast] at h
      obtain ⟨rfl, rfl⟩ := StateExcept.pure_eq_ok h
      have hdone : namespacePayloads e.ns db = done := by
        rw [hinv.cut.eq, List.append_nil, List.append_nil]
      exact ⟨by rw [htotal, hdone], updates, hdone ▸ hinv.reseals, hdb.trans hinv.state⟩
    | some last =>
      have hpage : page ≠ [] := by
        rintro rfl
        exact absurd hlast (by simp)
      obtain rfl : page.getLast hpage = last := by
        rw [List.getLast?_eq_some_getLast hpage] at hlast
        exact Option.some.inj hlast
      rw [hlast] at h
      obtain ⟨us, t₂, hlift, hrest⟩ := StateExcept.bind_eq_ok h
      obtain ⟨_, t₃, hupdate, hnext⟩ := StateExcept.bind_eq_ok hrest
      obtain ⟨hreseal, rfl⟩ := StateExcept.ofExcept_eq_ok hlift
      have hpageSealed := resealPage_ok hA hreseal
      have hsealed : ResealsPage f A old new (done ++ page) (updates ++ us) :=
        List.rel_append hinv.reseals hpageSealed
      have hcut := hinv.cut.next (pairwise_namespacePayloads hv) hpage
      have hnodup : ((updates ++ us).map PayloadRow.fileId).Nodup := by
        rw [hsealed.fileIds]
        have hids : ((namespacePayloads e.ns db).map _).Nodup := nodup_fileId hv
        rw [hcut.eq, List.map_append] at hids
        exact hids.of_append_left
      have hdb₃ := updatePage_ok hnodup (hdb.trans hinv.state) hupdate
      refine rotatePages_ok hv hrows hA ⟨hdb₃, hcut, hsealed⟩ ?_ ?_ hnext
      · rw [htotal, List.length_append, hpageSealed.length_eq]
      · have hpos := List.length_pos_iff.mpr hpage
        rw [List.length_append] at hfuel
        omega

end Loop

/-! ## Statements that succeeded -/

/-- A run of `x` that succeeds ran no statement the world fails. -/
def Faultless (w : World) {α : Type} (x : TxM α) : Prop :=
  ∀ t a t', x t = .ok (a, t') → t.statements ≤ t'.statements ∧
    ∀ k, t.statements ≤ k → k < t'.statements → w.fault k = none

section Faultless

variable {w : World} {α β : Type}

theorem statement_faultless {toError : SqlError → Error} {run : ℕ → Db → Except SqlError (α × Db)}
    {t t' : Tx} {a : α} (h : statement w toError run t = .ok (a, t')) :
    w.fault t.statements = none ∧ t'.statements = t.statements + 1 := by
  unfold statement at h
  split at h
  · exact absurd h (by simp)
  · next hfault =>
    split at h
    · obtain ⟨-, rfl⟩ := Prod.mk.inj (Except.ok.inj h)
      exact ⟨hfault, rfl⟩
    · exact absurd h (by simp)

theorem faultless_statement {toError : SqlError → Error}
    {run : ℕ → Db → Except SqlError (α × Db)} : Faultless w (statement w toError run) := by
  intro t a t' h
  obtain ⟨hfault, hcount⟩ := statement_faultless h
  refine ⟨by omega, fun k hk hk' => ?_⟩
  obtain rfl : k = t.statements := by omega
  exact hfault

theorem faultless_execute {toError : SqlError → Error} {run : ℕ → Db → Except SqlError Db} :
    Faultless w (execute w toError run) := by
  unfold execute
  exact faultless_statement

theorem faultless_pure (a : α) : Faultless w (pure a : TxM α) := by
  intro t b t' h
  obtain ⟨-, rfl⟩ := StateExcept.pure_eq_ok h
  exact ⟨le_rfl, fun k hk hk' => absurd hk' (by omega)⟩

theorem faultless_ofExcept (x : Except Error α) : Faultless w (StateExcept.ofExcept x : TxM α) := by
  intro t b t' h
  obtain ⟨-, rfl⟩ := StateExcept.ofExcept_eq_ok h
  exact ⟨le_rfl, fun k hk hk' => absurd hk' (by omega)⟩

theorem Faultless.bind {x : TxM α} {f : α → TxM β} (h : Faultless w x)
    (hf : ∀ a, Faultless w (f a)) : Faultless w (x >>= f) := by
  intro t b t' hrun
  obtain ⟨a, t₁, hx, hfa⟩ := StateExcept.bind_eq_ok hrun
  obtain ⟨hle, hfirst⟩ := h t a t₁ hx
  obtain ⟨hle', hlast⟩ := hf a t₁ b t' hfa
  refine ⟨hle.trans hle', fun k hk hk' => ?_⟩
  rcases lt_or_ge k t₁.statements with hlt | hge
  · exact hfirst k hk hlt
  · exact hlast k hge hk'

theorem faultless_forEach {f : β → TxM α} (hf : ∀ b, Faultless w (f b)) :
    ∀ bs : List β, Faultless w (StateExcept.forEach f bs)
  | [] => faultless_pure _
  | b :: bs => (hf b).bind fun _ => (faultless_forEach hf bs).bind fun _ => faultless_pure _

theorem faultless_rotatePages {f : Features} {A : Aead} {nonces : ℕ → Option Nonce} {e : Engine}
    {maxRows maxBytes : ℕ} {old new : Key} : ∀ (fuel : ℕ) (after : String) (total : ℕ),
      Faultless w (rotatePages f A nonces e w maxRows maxBytes old new fuel after total)
  | 0, _, _ => faultless_pure _
  | fuel + 1, after, total => by
    unfold rotatePages
    refine (faultless_statement.bind fun _ => faultless_pure _).bind fun page => ?_
    cases page.getLast? with
    | none => exact faultless_pure _
    | some last =>
      exact (faultless_ofExcept _).bind fun updates =>
        (faultless_forEach (f := updatePayloadContent w) (fun _ => faultless_execute) updates).bind fun _ =>
          faultless_rotatePages fuel last.path _

/-- A transaction that committed ran its body after its first statement, and neither that nor
the commit failed. -/
theorem transaction_faultless {body : TxM α} {db db' : Db} {a : α}
    (h : transaction w body db = (.ok a, db')) :
    w.fault 0 = none ∧ ∃ t, body ⟨db, 1, 0⟩ = .ok (a, t) ∧ t.db = db' ∧
      w.fault t.statements = none := by
  unfold transaction at h
  simp only at h
  split at h
  · next b t hrun =>
    obtain ⟨hb, rfl⟩ := Prod.mk.inj h
    obtain rfl := Except.ok.inj hb
    obtain ⟨_, t₀, h₀, hrun⟩ := StateExcept.bind_eq_ok hrun
    obtain ⟨c, t₁, hbody, hrun⟩ := StateExcept.bind_eq_ok hrun
    obtain ⟨_, t₂, h₂, hrun⟩ := StateExcept.bind_eq_ok hrun
    obtain ⟨rfl, rfl⟩ := StateExcept.pure_eq_ok hrun
    obtain ⟨hbegin, hcount⟩ := statement_faultless h₀
    obtain ⟨-, hdb, hread⟩ := select_ok h₀
    obtain ⟨-, hdb₂, -⟩ := select_ok h₂
    obtain rfl : t₀ = ⟨db, 1, 0⟩ := by
      cases t₀
      simp_all
    exact ⟨hbegin, t₁, hbody, hdb₂.symm, (statement_faultless h₂).1⟩
  · exact absurd (Prod.mk.inj h).1 (by simp)

end Faultless

/-! ## The whole rotation -/

/-- The rotation of the namespace's `n` payloads : each is re-sealed, and all else is as it
was. -/
structure Rotated (f : Features) (A : Aead) (ns : String) (old new : Key) (n : ℕ)
    (db db' : Db) : Prop where
  files : db'.files = db.files
  seq : db'.seq = db.seq
  count : n = (db.payloads.filter fun p => db.files.any fun r => r.ns = ns ∧ r.id = p.fileId).length
  fileIds : db'.payloads.map PayloadRow.fileId = db.payloads.map PayloadRow.fileId
  resealed : ∀ p ∈ db.payloads, ∀ r ∈ db.files, r.id = p.fileId → r.ns = ns →
    ∃ p' ∈ db'.payloads, Resealed f A old new r.path p p'
  others : ∀ p ∈ db.payloads, ∀ r ∈ db.files, r.id = p.fileId → r.ns ≠ ns → p ∈ db'.payloads

section Whole

variable {f : Features} {A : Aead} {ns : String} {old new : Key} {db : Db}

theorem length_namespacePayloads (hv : db.Valid) : (namespacePayloads ns db).length =
    (db.payloads.filter fun p => db.files.any fun r => r.ns = ns ∧ r.id = p.fileId).length := by
  have hperm : ((namespacePayloads ns db).map (·.fileId)).Perm ((db.payloads.filter fun p =>
      db.files.any fun r => r.ns = ns ∧ r.id = p.fileId).map PayloadRow.fileId) := by
    refine (List.perm_ext_iff_of_nodup (nodup_fileId hv) (hv.payloadIds.sublist
      ((List.filter_sublist).map _))).mpr fun id => ?_
    simp only [List.mem_map, mem_namespacePayloads hv, List.mem_filter, List.any_eq_true,
      decide_eq_true_eq]
    constructor
    · rintro ⟨_, ⟨file, hfile, hns, p, hp, hid, rfl⟩, rfl⟩
      exact ⟨p, ⟨hp, file, hfile, hns, hid.symm⟩, rfl⟩
    · rintro ⟨p, ⟨hp, file, hfile, hns, hid⟩, rfl⟩
      exact ⟨_, ⟨file, hfile, hns, p, hp, hid.symm, rfl⟩, rfl⟩
  simpa using hperm.length_eq

theorem exists_of_resealsPage {page : List PayloadPageRow} {updates : List PayloadRow}
    (h : ResealsPage f A old new page updates) {row : PayloadPageRow} (hrow : row ∈ page) :
    ∃ u ∈ updates, Resealed f A old new row.path ⟨row.fileId, row.content, row.encoding⟩ u := by
  induction h with
  | nil => exact absurd hrow List.not_mem_nil
  | @cons first u page updates hu _ ih =>
    rcases List.mem_cons.mp hrow with rfl | hrow
    · exact ⟨u, List.mem_cons_self, hu⟩
    · obtain ⟨u', hu', hres⟩ := ih hrow
      exact ⟨u', List.mem_cons_of_mem _ hu', hres⟩

theorem rotated_of_resealsPage (hv : db.Valid) {updates : List PayloadRow}
    (h : ResealsPage f A old new (namespacePayloads ns db) updates) :
    Rotated f A ns old new (namespacePayloads ns db).length db (rewritten db updates) where
  files := rfl
  seq := rfl
  count := length_namespacePayloads hv
  fileIds := by simp [rewritten, List.map_map, Function.comp_def]
  resealed p hp r hr hid hns := by
    have hrow : ⟨p.fileId, r.path, p.encoding, p.content⟩ ∈ namespacePayloads ns db :=
      (mem_namespacePayloads hv).mpr ⟨r, hr, hns, p, hp, hid.symm, rfl⟩
    obtain ⟨u, hu, hres⟩ := exists_of_resealsPage h hrow
    have hnodup : (updates.map PayloadRow.fileId).Nodup := h.fileIds ▸ nodup_fileId hv
    exact ⟨u, List.mem_map.mpr ⟨p, hp, overwrite_of_mem hnodup hu hres.fileId⟩, hres⟩
  others p hp r hr hid hns := by
    refine List.mem_map.mpr ⟨p, hp, overwrite_of_notMem fun hmem => ?_⟩
    rw [h.fileIds] at hmem
    obtain ⟨row, hrow, hrowid⟩ := List.mem_map.mp hmem
    obtain ⟨file, hfile, hfilens, q, hq, hqid, rfl⟩ := (mem_namespacePayloads hv).mp hrow
    exact hns ((hv.eq_of_id hr hfile (hid.trans (hrowid.symm.trans hqid))) ▸ hfilens)

/-- What a rotation under the old key `old` promises, whatever its outcome. -/
structure RotatesWhole (f : Features) (A : Aead) (e : Engine) (w : World) (old new : Key) (db : Db)
    (o : RotationOutcome) : Prop where
  ok : ∀ n, o.result = .ok n → Rotated f A e.ns old new n db o.db ∧ o.key = some new ∧
    ∀ k < o.statements, w.fault k = none
  error : ∀ err, o.result = .error err → o.db = db ∧ o.key = some old
  refuses : ∀ p ∈ db.payloads, ∀ r ∈ db.files, r.id = p.fileId → r.ns = e.ns →
    (isKnownBase f (parseTag p.encoding).1 = false ∨
      ∃ err, plaintextOf A p.content p.encoding r.path old = .error err) →
        ∃ err, o.result = .error err

theorem rotatesWhole_of_error {e : Engine} {w : World} (hold : e.encryptionKey = some old)
    (err : Error) : RotatesWhole f A e w old new db ⟨.error err, db, e.encryptionKey, 0⟩ where
  ok n hn := absurd hn (by simp)
  error _ _ := ⟨rfl, hold⟩
  refuses _ _ _ _ _ _ _ := ⟨err, rfl⟩

/-- A payload that has an unknown tag or does not open was not re-sealed. -/
theorem Rotated.refuses {n : ℕ} {db' : Db} (h : Rotated f A ns old new n db db')
    {p : PayloadRow} (hp : p ∈ db.payloads) {r : FileRow} (hr : r ∈ db.files) (hid : r.id = p.fileId)
    (hns : r.ns = ns) : isKnownBase f (parseTag p.encoding).1 = true ∧
      ∃ plain, plaintextOf A p.content p.encoding r.path old = .ok plain := by
  obtain ⟨p', -, hres⟩ := h.resealed p hp r hr hid hns
  obtain ⟨plain, hplain, -⟩ := hres.opens
  exact ⟨(boundTag_eq_some.mp hres.tag).1, plain, hplain⟩

theorem rewritten_nil : rewritten db [] = db := by
  have hid : overwrite [] = id := rfl
  rw [rewritten, hid, List.map_id]

/-- The transaction of a rotation, when it commits. -/
theorem rotateTransaction_ok (hv : db.Valid) (hpaths : ∀ r ∈ db.files, r.path ≠ "")
    (hA : ∀ key nonce aad plain cipher, A.encrypt key nonce aad plain = some cipher →
      A.decrypt key nonce aad cipher = some plain)
    {e : Engine} {maxRows maxBytes : ℕ} (hrows : 1 ≤ maxRows) {nonces : ℕ → Option Nonce}
    {w : World} {fuel : ℕ} (hfuel : db.payloads.length < fuel) {result : Option ℕ}
    {statements : ℕ} {db' : Db}
    (h : transaction w (do
      let total ← rotatePages f A nonces e w maxRows maxBytes old new fuel "" 0
      let statements ← statementsSoFar
      pure (total, statements)) db = (.ok (result, statements), db')) :
    ∃ n, result = some n ∧ Rotated f A e.ns old new n db db' ∧
      ∀ k < statements + 1, w.fault k = none := by
  obtain ⟨hbegin, t, hbody, rfl, hcommit⟩ := transaction_faultless h
  obtain ⟨total, t₁, hpages, hbody⟩ := StateExcept.bind_eq_ok hbody
  obtain ⟨count, hcount, heq⟩ := StateExcept.map_eq_ok hbody
  obtain ⟨rfl, rfl⟩ := Prod.mk.inj heq
  obtain ⟨rfl, rfl⟩ := Prod.mk.inj (Except.ok.inj hcount)
  have hstart : Cut (fun r => textKey r.path) (namespacePayloads e.ns db) (textKey "") []
      (namespacePayloads e.ns db) := by
    refine Cut.start fun row hrow => ?_
    obtain ⟨file, hfile, -, p, -, -, rfl⟩ := (mem_namespacePayloads hv).mp hrow
    exact textKey_empty_lt (hpaths file hfile)
  have hlen : (namespacePayloads e.ns db).length < fuel := by
    rw [length_namespacePayloads hv]
    exact (List.length_filter_le _ _).trans_lt hfuel
  obtain ⟨rfl, updates, hsealed, hdb⟩ := rotatePages_ok hv hrows hA
    ⟨rewritten_nil.symm, hstart, .nil⟩ rfl hlen hpages
  obtain ⟨hle, hfault⟩ := faultless_rotatePages fuel "" 0 _ _ _ hpages
  refine ⟨_, rfl, hdb ▸ rotated_of_resealsPage hv hsealed, fun k hk => ?_⟩
  rcases Nat.lt_or_ge k 1 with hlt | hge
  · obtain rfl : k = 0 := by omega
    exact hbegin
  · rcases Nat.lt_or_ge k t₁.statements with hlt | hge'
    · exact hfault k hge hlt
    · obtain rfl : k = t₁.statements := by omega
      exact hcommit

/-- Rotation is complete, exact and atomic. With paths not empty, and fuel for a page for each
payload and one more, the loop ends. A rotation that succeeds ran no failing statement,
re-sealed every payload of the namespace once, and left its engine with the new key. One that
fails left the tables and the key as they were, and it fails when a payload of the namespace
has an unknown tag or does not open under the old key. -/
theorem rotateEncryptionKey_rotatesWhole (hv : db.Valid) (hpaths : ∀ r ∈ db.files, r.path ≠ "")
    (hA : ∀ key nonce aad plain cipher, A.encrypt key nonce aad plain = some cipher →
      A.decrypt key nonce aad cipher = some plain)
    {e : Engine} (hold : e.encryptionKey = some old) {newKey : List UInt8}
    (hnew : Key.fromSlice newKey = some new) {maxRows : ℕ} (hrows : 1 ≤ maxRows) (maxBytes : ℕ)
    (nonces : ℕ → Option Nonce) (w : World) {fuel : ℕ} (hfuel : db.payloads.length < fuel) :
    ∃ o, rotateEncryptionKey f A nonces e w maxRows maxBytes fuel newKey db = some o ∧
      RotatesWhole f A e w old new db o := by
  unfold rotateEncryptionKey
  by_cases hro : e.readOnly
  · rw [if_pos hro]
    exact ⟨_, rfl, rotatesWhole_of_error hold _⟩
  rw [if_neg hro]
  simp only [hold, hnew]
  split
  · next hrun =>
    obtain ⟨n, hn, -⟩ := rotateTransaction_ok hv hpaths hA hrows hfuel hrun
    exact absurd hn (by simp)
  · next total statements db' hrun =>
    obtain ⟨n, hn, hrotated, hfault⟩ := rotateTransaction_ok hv hpaths hA hrows hfuel hrun
    obtain rfl := Option.some.inj hn
    refine ⟨_, rfl, fun n hn => ?_, fun err herr => absurd herr (by simp), ?_⟩
    · obtain rfl := Except.ok.inj hn
      exact ⟨hrotated, rfl, hfault⟩
    · intro p hp r hr hid hns hbad
      obtain ⟨hknown, plain, hplain⟩ := hrotated.refuses hp hr hid hns
      rcases hbad with hbase | ⟨err, herr⟩
      · exact absurd hknown (by simp [hbase])
      · exact absurd (hplain.symm.trans herr) (by simp)
  · next err db' hrun =>
    rcases transaction_cases (w := w) (do
      let total ← rotatePages f A nonces e w maxRows maxBytes old new fuel "" 0
      let statements ← statementsSoFar
      pure (total, statements)) db with ⟨a, t₀, t, hok, -⟩ | ⟨err', herr⟩
    · exact absurd (Prod.mk.inj (hok.symm.trans hrun)).1 (by simp)
    · obtain ⟨-, rfl⟩ := Prod.mk.inj (herr.symm.trans hrun)
      rw [← hold]
      exact ⟨_, rfl, rotatesWhole_of_error hold err⟩

end Whole

section Witness

/-- An AEAD that shows its key, nonce and associated data, and opens only under them. -/
def plainAead : Aead where
  encrypt key nonce aad plain := some (key.bytes ++ nonce.bytes ++ aad ++ plain)
  decrypt key nonce aad cipher :=
    if key.bytes ++ nonce.bytes ++ aad <+: cipher then
      some (cipher.drop (key.bytes ++ nonce.bytes ++ aad).length)
    else none

theorem plainAead_correct (key : Key) (nonce : Nonce) (aad plain cipher : List UInt8)
    (h : plainAead.encrypt key nonce aad plain = some cipher) :
    plainAead.decrypt key nonce aad cipher = some plain := by
  obtain rfl := Option.some.inj h
  show (if _ then some (List.drop _ _) else none) = _
  rw [if_pos (List.prefix_append _ _), List.drop_left]

def oldKey : Key := ⟨List.replicate 32 1, by decide⟩

def newKey : Key := ⟨List.replicate 32 2, by decide⟩

def zeroNonce : Nonce := ⟨List.replicate 12 0, by decide⟩

/-- A namespace with a plain and a legacy payload, beside another namespace. -/
def mixedDb : Db where
  files := [⟨1, "n", "/b", ⟨0, 0, none⟩, 0, 0, 1⟩, ⟨2, "n", "/a", ⟨0, 0, none⟩, 0, 0, 2⟩,
    ⟨3, "m", "/a", ⟨0, 0, none⟩, 0, 0, 1⟩]
  payloads := [⟨1, [5], "raw"⟩, ⟨2, zeroNonce.bytes ++ (oldKey.bytes ++ zeroNonce.bytes ++ [6]),
    "raw-aes256gcm"⟩, ⟨3, [7], "raw"⟩]
  seq := 3

def keyedEngine : Engine := { Engine.plain "n" none with encryptionKey := oldKey }

/-- Both payloads are re-sealed, on pages of one row. -/
theorem rotateEncryptionKey_rotatesWhole_sample :
    ∃ o, rotateEncryptionKey ⟨true, true⟩ plainAead (fun _ => zeroNonce) keyedEngine .quiet 1 1 4
        newKey.bytes mixedDb = some o ∧ o.result = .ok 2 ∧
      Rotated ⟨true, true⟩ plainAead "n" oldKey newKey 2 mixedDb o.db ∧ o.key = newKey := by
  have hv : mixedDb.Valid := ⟨by decide, by decide, by decide, by decide, by decide⟩
  have hnew : Key.fromSlice newKey.bytes = some newKey := by decide
  have hresult : (rotateEncryptionKey ⟨true, true⟩ plainAead (fun _ => zeroNonce) keyedEngine .quiet
      1 1 4 newKey.bytes mixedDb).map RotationOutcome.result = some (.ok 2) := by rfl
  obtain ⟨o, ho, hwhole⟩ := rotateEncryptionKey_rotatesWhole (f := ⟨true, true⟩) hv (by decide)
    plainAead_correct (e := keyedEngine) rfl hnew le_rfl 1 (fun _ => zeroNonce) .quiet
    (show mixedDb.payloads.length < 4 by decide)
  rw [ho] at hresult
  have hok := Option.some.inj hresult
  exact ⟨o, ho, hok, (hwhole.ok 2 hok).1, (hwhole.ok 2 hok).2.1⟩

end Witness

end LocalCache
