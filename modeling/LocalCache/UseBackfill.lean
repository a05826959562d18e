import LocalCache.Keyset
import LocalCache.Preservation
import Mathlib.Data.Int.Interval
import Mathlib.Data.Set.List

/-!
# The backfill of the use order

The rule gives the rows of a namespace, in the order of their last uses, the values
`v_1 = s_1 · 10^6` and `v_i = max(s_i · 10^6, v_{i-1} + 1)` (`ruleValues`). `migrateV5ToV6` computes
them as a window over `i64`s that turn into reals when they overflow, and `validateUseOrder` by the
recurrence, in saturating and checked arithmetic. On rows with integer columns the two succeed
together, exactly when the last uses and the values are in range, and then nothing overflows
(`backfill_meetsRule`).
-/

namespace LocalCache

/-! ## The rule -/

/-- The integer of a column. -/
def SqlValue.toInt : SqlValue → ℤ
  | .integer i => i
  | _ => 0

/-- The namespace is a text, and the times are `i64`s. -/
structure FilesV4.IntegerColumns (r : FilesV4) : Prop where
  ns : ∃ ns, r.ns = .text ns
  updatedAt : ∃ u, r.updatedAt = .integer u ∧ InI64 u
  lastAccessedAt : ∃ a, r.lastAccessedAt = .integer a ∧ InI64 a

/-- `s` : the second of the last use. -/
def FilesV4.lastUse (r : FilesV4) : ℤ :=
  if 0 < r.lastAccessedAt.toInt then r.lastAccessedAt.toInt else r.updatedAt.toInt

/-- The rows of a namespace in the order of `(s, updated_at, id)`. -/
def ruleOrder (files : List FilesV4) (ns : SqlValue) : List FilesV4 :=
  sortBy (fun r => toLex (r.lastUse, toLex (r.updatedAt.toInt, r.id)))
    (files.filter fun r => r.ns = ns)

def ruleSeconds (files : List FilesV4) (ns : SqlValue) : List ℤ :=
  (ruleOrder files ns).map FilesV4.lastUse

/-- `v_1 = s_1 · 10^6`, and `v_i = max(s_i · 10^6, v_{i-1} + 1)`. -/
def ruleValues (files : List FilesV4) (ns : SqlValue) : List ℤ :=
  climb 1 ((ruleSeconds files ns).map fun s => s * 1000000)

/-- The last uses and the values of the rule are in the ranges of the checks. -/
structure RuleFits (files : List FilesV4) : Prop where
  seconds : ∀ r ∈ files, 0 ≤ r.lastUse ∧ r.lastUse ≤ recencySecondsMax
  values : ∀ ns, ∀ v ∈ ruleValues files ns, v < useValueLimit

/-! ## The window on integers -/

section Window

variable (S : Sqlite)

/-- A term of the window. -/
def useTerm (s : SqlValue) (rn : ℕ) : SqlValue :=
  S.arith .sub (S.arith .mul s (.integer 1000000)) (.integer rn)

/-- A value of the window. -/
def useValue (rn : ℕ) (m : SqlValue) : SqlValue := S.arith .add (.integer rn) m

variable {S} {s m : ℤ} {k : ℕ}

theorem mul_le_useValueLimit (h : s ≤ recencySecondsMax) : s * 1000000 ≤ useValueLimit := by
  unfold recencySecondsMax at h
  unfold useValueLimit at h ⊢
  omega

theorem useTerm_integer (h0 : 0 ≤ s) (hs : s ≤ recencySecondsMax) (hk : (k : ℤ) ≤ useValueLimit + 2) :
    useTerm S (.integer s) k = .integer (s * 1000000 - k) := by
  have hle := mul_le_useValueLimit hs
  unfold useValueLimit at hle hk
  have hmul : S.arith .mul (.integer s) (.integer 1000000) = .integer (s * 1000000) :=
    S.arith_integer .mul s 1000000 ⟨by simp only [Op.apply]; omega, by simp only [Op.apply]; omega⟩
  rw [useTerm, hmul]
  exact S.arith_integer .sub (s * 1000000) k
    ⟨by simp only [Op.apply]; omega, by simp only [Op.apply]; omega⟩

theorem useValue_integer (hm : -1 ≤ m) (hk : (k : ℤ) + m ≤ useValueLimit) :
    useValue S k (.integer m) = .integer (k + m) := by
  unfold useValueLimit at hk
  exact S.arith_integer .add k m ⟨by simp only [Op.apply]; omega, by simp only [Op.apply]; omega⟩

/-- While the values are below the limit the window is the climb, and the first value that is not
fails the check. -/
theorem windowedFrom_useTerm : ∀ (seconds : List ℤ) (k : ℕ) (m : ℤ),
    (∀ s ∈ seconds, 0 ≤ s ∧ s ≤ recencySecondsMax) → -1 ≤ m → (k : ℤ) + m ≤ useValueLimit →
      ((∀ w ∈ windowedFrom (useTerm S) S.max (useValue S) k (.integer m) (seconds.map .integer),
          useValueCheck (S.affinity w) = true) ↔
        ∀ v ∈ climbFrom 1 ((k : ℤ) + m) (seconds.map fun s => s * 1000000), v < useValueLimit) ∧
      ((∀ v ∈ climbFrom 1 ((k : ℤ) + m) (seconds.map fun s => s * 1000000), v < useValueLimit) →
        windowedFrom (useTerm S) S.max (useValue S) k (.integer m) (seconds.map .integer) =
          (climbFrom 1 ((k : ℤ) + m) (seconds.map fun s => s * 1000000)).map .integer)
  | [], k, m, _, hm, hk => by
    simp [useValue_integer hm hk, S.affinity_integer, useValueCheck]
  | s :: seconds, k, m, hseconds, hm, hk => by
    obtain ⟨⟨h0, hs⟩, hrest⟩ := List.forall_mem_cons.mp hseconds
    have hfirst := useValue_integer (S := S) hm hk
    have hle := mul_le_useValueLimit hs
    have hterm : useTerm S (.integer s) (k + 1) = .integer (s * 1000000 - (k + 1 : ℕ)) :=
      useTerm_integer h0 hs (by push_cast; omega)
    rw [List.map_cons, List.map_cons, windowedFrom_cons, climbFrom_cons, hfirst, hterm, S.max_integer]
    by_cases hv : (k : ℤ) + m < useValueLimit
    · have hnext : ((k + 1 : ℕ) : ℤ) + max m (s * 1000000 - (k + 1 : ℕ)) =
          max (s * 1000000) ((k : ℤ) + m + 1) := by
        push_cast
        omega
      obtain ⟨hcheck, hexact⟩ := windowedFrom_useTerm seconds (k + 1)
        (max m (s * 1000000 - (k + 1 : ℕ))) hrest (hm.trans (le_max_left _ _)) (by rw [hnext]; omega)
      rw [hnext] at hcheck hexact
      constructor
      · rw [List.forall_mem_cons, List.forall_mem_cons, hcheck, S.affinity_integer]
        exact and_congr_left fun _ => decide_eq_true_iff
      · intro hvalues
        rw [List.map_cons, hexact (List.forall_mem_cons.mp hvalues).2]
    · have hfails : useValueCheck (S.affinity (.integer (k + m))) ≠ true := by
        rw [S.affinity_integer]
        simpa [useValueCheck] using hv
      exact ⟨⟨fun h => absurd (List.forall_mem_cons.mp h).1 hfails,
        fun h => absurd (List.forall_mem_cons.mp h).1 hv⟩,
        fun h => absurd (List.forall_mem_cons.mp h).1 hv⟩

theorem windowValues_integer {seconds : List ℤ}
    (h : ∀ s ∈ seconds, 0 ≤ s ∧ s ≤ recencySecondsMax) :
    ((∀ w ∈ windowValues S (seconds.map .integer), useValueCheck (S.affinity w) = true) ↔
      ∀ v ∈ climb 1 (seconds.map fun s => s * 1000000), v < useValueLimit) ∧
    ((∀ v ∈ climb 1 (seconds.map fun s => s * 1000000), v < useValueLimit) →
      windowValues S (seconds.map .integer) =
        (climb 1 (seconds.map fun s => s * 1000000)).map .integer) := by
  cases seconds with
  | nil => exact ⟨by simp [windowValues, windowed, running, climb], fun _ => rfl⟩
  | cons s seconds =>
    obtain ⟨⟨h0, hs⟩, hrest⟩ := List.forall_mem_cons.mp h
    have hle := mul_le_useValueLimit hs
    have hfirst : ((1 : ℕ) : ℤ) + (s * 1000000 - (1 : ℕ)) = s * 1000000 := by omega
    have hwindow := windowedFrom_useTerm (S := S) seconds 1 (s * 1000000 - (1 : ℕ)) hrest (by omega)
      (by rw [hfirst]; exact hle)
    rw [hfirst] at hwindow
    have hvalues : windowValues S ((s :: seconds).map .integer) =
        windowedFrom (useTerm S) S.max (useValue S) 1 (.integer (s * 1000000 - (1 : ℕ)))
          (seconds.map .integer) := by
      rw [← useTerm_integer (S := S) (k := 1) h0 hs (by unfold useValueLimit; omega)]
      rfl
    rw [hvalues]
    exact hwindow

end Window

/-! ## The recurrence of the check -/

section Check

/-- A row as `checkUseOrder` reads it. -/
def checkedRow (ns : String) (p : ℤ × ℤ) : SqlValue × SqlValue × SqlValue :=
  (.text ns, .integer p.1, .integer p.2)

theorem checkedMulI64_of_le {s : ℤ} (h0 : 0 ≤ s) (hs : s ≤ recencySecondsMax) :
    checkedMulI64 s 1000000 = some (s * 1000000) := by
  have hle := mul_le_useValueLimit hs
  unfold useValueLimit at hle
  exact if_pos ⟨by omega, by omega⟩

theorem saturatingAdd_of_lt {v : ℤ} (h0 : 0 ≤ v) (hv : v < useValueLimit) :
    saturatingAdd v 1 = v + 1 := by
  unfold useValueLimit at hv
  unfold saturatingAdd
  omega

/-- A row with the value the recurrence expects. -/
theorem checkUseOrder_cons {ns₀ ns : String} {previous : Option ℤ} {s v : ℤ}
    {rows : List (SqlValue × SqlValue × SqlValue)} (h0 : 0 ≤ s) (hs : s ≤ recencySecondsMax)
    (hv : 0 ≤ v ∧ v < useValueLimit)
    (hexpected : v = match (if ns = ns₀ then previous else none) with
      | some last => max (s * 1000000) (saturatingAdd last 1)
      | none => s * 1000000) :
    checkUseOrder ns₀ previous (checkedRow ns (s, v) :: rows) = checkUseOrder ns (some v) rows := by
  rw [checkedRow, checkUseOrder, checkedMulI64_of_le h0 hs]
  simp only
  rw [if_neg]
  rw [not_or, not_not, ne_eq, not_not]
  exact ⟨hv, hexpected⟩

/-- The rows of a namespace after its first pass, and those that follow do. -/
theorem checkUseOrder_climbFrom {ns : String} {rest : List (SqlValue × SqlValue × SqlValue)}
    (hrest : ∀ previous, checkUseOrder ns previous rest = .ok ()) : ∀ (seconds : List ℤ) (last : ℤ),
    (∀ s ∈ seconds, 0 ≤ s ∧ s ≤ recencySecondsMax) → 0 ≤ last →
      (∀ v ∈ climbFrom 1 last (seconds.map fun s => s * 1000000), v < useValueLimit) →
        checkUseOrder ns (some last) ((seconds.zip
          (climbFrom 1 last (seconds.map fun s => s * 1000000)).tail).map (checkedRow ns) ++ rest) = .ok ()
  | [], last, _, _, _ => hrest _
  | s :: seconds, last, hseconds, hlast, hvalues => by
    obtain ⟨⟨h0, hs⟩, hseconds⟩ := List.forall_mem_cons.mp hseconds
    rw [List.map_cons, climbFrom_cons, List.forall_mem_cons] at hvalues
    obtain ⟨hlt, hvalues⟩ := hvalues
    obtain ⟨values, hcons⟩ := climbFrom_eq_cons 1 (max (s * 1000000) (last + 1))
      (seconds.map fun s => s * 1000000)
    have hnext := checkUseOrder_climbFrom hrest seconds _ hseconds (by omega) hvalues
    have hv : max (s * 1000000) (last + 1) < useValueLimit :=
      hvalues _ (by rw [hcons]; exact List.mem_cons_self)
    rw [List.map_cons, climbFrom_cons, List.tail_cons, hcons, List.zip_cons_cons, List.map_cons,
      List.cons_append, checkUseOrder_cons h0 hs ⟨by omega, hv⟩]
    · rwa [hcons] at hnext
    · rw [if_pos rfl]
      simp only [saturatingAdd_of_lt hlast hlt]

/-- The rows of a namespace that starts anew. -/
theorem checkUseOrder_climb {ns₀ ns : String} {previous : Option ℤ} {seconds : List ℤ}
    {rest : List (SqlValue × SqlValue × SqlValue)} (hnew : previous = none ∨ ns ≠ ns₀)
    (hseconds : ∀ s ∈ seconds, 0 ≤ s ∧ s ≤ recencySecondsMax)
    (hvalues : ∀ v ∈ climb 1 (seconds.map fun s => s * 1000000), v < useValueLimit)
    (hne : seconds ≠ []) (hrest : ∀ previous, checkUseOrder ns previous rest = .ok ()) :
    checkUseOrder ns₀ previous ((seconds.zip (climb 1 (seconds.map fun s => s * 1000000))).map
      (checkedRow ns) ++ rest) = .ok () := by
  cases seconds with
  | nil => exact absurd rfl hne
  | cons s seconds =>
    obtain ⟨⟨h0, hs⟩, hseconds⟩ := List.forall_mem_cons.mp hseconds
    rw [List.map_cons, climb_cons] at hvalues ⊢
    obtain ⟨values, hcons⟩ := climbFrom_eq_cons 1 (s * 1000000) (seconds.map fun s => s * 1000000)
    have hnext := checkUseOrder_climbFrom hrest seconds (s * 1000000) hseconds (by omega) hvalues
    have hv : s * 1000000 < useValueLimit := hvalues _ (by rw [hcons]; exact List.mem_cons_self)
    rw [hcons, List.zip_cons_cons, List.map_cons, List.cons_append,
      checkUseOrder_cons h0 hs ⟨by omega, hv⟩]
    · rwa [hcons] at hnext
    · have hnone : (if ns = ns₀ then previous else none) = none := by
        rcases hnew with rfl | hns
        · exact ite_self none
        · exact if_neg hns
      rw [hnone]

/-- Namespace after namespace, each with the values of its own climb. -/
theorem checkUseOrder_flatMap {seconds : String → List ℤ} : ∀ (nss : List String) (ns₀ : String)
    (previous : Option ℤ), nss.Nodup → previous = none ∨ ns₀ ∉ nss →
      (∀ ns ∈ nss, seconds ns ≠ [] ∧ (∀ s ∈ seconds ns, 0 ≤ s ∧ s ≤ recencySecondsMax) ∧
        ∀ v ∈ climb 1 ((seconds ns).map fun s => s * 1000000), v < useValueLimit) →
      checkUseOrder ns₀ previous (nss.flatMap fun ns =>
        ((seconds ns).zip (climb 1 ((seconds ns).map fun s => s * 1000000))).map (checkedRow ns)) = .ok ()
  | [], _, _, _, _, _ => rfl
  | ns :: nss, ns₀, previous, hnodup, hnew, hall => by
    obtain ⟨hns, hnodup⟩ := List.nodup_cons.mp hnodup
    obtain ⟨⟨hne, hseconds, hvalues⟩, hall⟩ := List.forall_mem_cons.mp hall
    rw [List.flatMap_cons]
    refine checkUseOrder_climb (hnew.imp_right fun h heq => h (heq ▸ List.mem_cons_self)) hseconds hvalues
      hne fun previous => ?_
    exact checkUseOrder_flatMap nss ns previous hnodup (.inr hns) hall

end Check

/-! ## The rows, namespace by namespace -/

section Rows

variable {S : Sqlite} {files : List FilesV4} {r : FilesV4} {ns : SqlValue}

theorem FilesV4.IntegerColumns.seconds_eq (h : r.IntegerColumns) : r.seconds S = .integer r.lastUse := by
  obtain ⟨u, hu, -⟩ := h.updatedAt
  obtain ⟨a, ha, -⟩ := h.lastAccessedAt
  have hpos : 0 < S.rank (.integer a) ↔ 0 < a := by
    rw [S.rank_integer]
    exact Int.cast_pos
  unfold FilesV4.seconds useSeconds FilesV4.lastUse
  rw [hu, ha, SqlValue.toInt, SqlValue.toInt]
  by_cases h0 : 0 < a
  · rw [if_pos (hpos.mpr h0), if_pos h0]
  · rw [if_neg (hpos.not.mpr h0), if_neg h0]

theorem FilesV4.IntegerColumns.rank_seconds (h : r.IntegerColumns) : S.rank (r.seconds S) = r.lastUse := by
  rw [h.seconds_eq, S.rank_integer]

theorem FilesV4.IntegerColumns.rank_updatedAt (h : r.IntegerColumns) :
    S.rank r.updatedAt = r.updatedAt.toInt := by
  obtain ⟨u, hu, -⟩ := h.updatedAt
  rw [hu, S.rank_integer]
  rfl

/-- The key of a partition of the window. -/
def windowKey (S : Sqlite) (r : FilesV4) : ℚ ×ₗ ℚ ×ₗ ℤ :=
  toLex (S.rank (r.seconds S), toLex (S.rank r.updatedAt, r.id))

/-- The window's partitions are in the order of the rule. -/
theorem usePartition_eq (hcols : ∀ r ∈ files, r.IntegerColumns) :
    usePartition S files ns = ruleOrder files ns := by
  have hkey : ∀ a ∈ files.filter (fun r => r.ns = ns), ∀ b ∈ files.filter (fun r => r.ns = ns),
      (windowKey S (id a) ≤ windowKey S (id b) ↔
        toLex (a.lastUse, toLex (a.updatedAt.toInt, a.id)) ≤
          toLex (b.lastUse, toLex (b.updatedAt.toInt, b.id))) := by
    intro a ha b hb
    have ha := hcols a (List.mem_of_mem_filter ha)
    have hb := hcols b (List.mem_of_mem_filter hb)
    unfold windowKey
    simp only [id_eq, Prod.Lex.le_iff, ha.rank_seconds, hb.rank_seconds, ha.rank_updatedAt,
      hb.rank_updatedAt, ofLex_toLex, Int.cast_lt, Int.cast_inj]
  have hsort := sortBy_map hkey
  rw [List.map_id, List.map_id] at hsort
  exact hsort

theorem mem_ruleOrder : r ∈ ruleOrder files ns ↔ r ∈ files ∧ r.ns = ns := by
  rw [ruleOrder, mem_sortBy, List.mem_filter, decide_eq_true_eq]

theorem map_seconds_eq (hcols : ∀ r ∈ files, r.IntegerColumns) :
    (usePartition S files ns).map (fun r => r.seconds S) = (ruleSeconds files ns).map .integer := by
  rw [usePartition_eq hcols, ruleSeconds, List.map_map]
  exact List.map_congr_left fun r hr => (hcols r (mem_ruleOrder.mp hr).1).seconds_eq

/-! ## The two statements of the migration -/

theorem mem_usePartition : r ∈ usePartition S files ns ↔ r ∈ files ∧ r.ns = ns := by
  rw [usePartition, mem_sortBy, List.mem_filter, decide_eq_true_eq]

/-- The window's values of a namespace. -/
def partitionValues (S : Sqlite) (files : List FilesV4) (ns : SqlValue) : List SqlValue :=
  windowValues S ((usePartition S files ns).map fun r => r.seconds S)

theorem length_partitionValues :
    (partitionValues S files ns).length = (usePartition S files ns).length := by
  rw [partitionValues, windowValues, length_windowed, List.length_map]

theorem nodup_usePartition (hids : (files.map fun r => r.id).Nodup) :
    (usePartition S files ns).Nodup :=
  (sortBy_perm _ _).nodup_iff.mpr ((hids.of_map _).filter _)

/-- A row of a partition has the value of its rank. -/
theorem backfilledValue_getElem (hids : (files.map fun r => r.id).Nodup) {i : ℕ}
    (hi : i < (usePartition S files ns).length) (hi' : i < (partitionValues S files ns).length) :
    backfilledValue S files ((usePartition S files ns)[i]) =
      S.affinity ((partitionValues S files ns)[i]) := by
  obtain ⟨hmem, hns⟩ := mem_usePartition.mp (List.getElem_mem hi)
  have hfound : ∀ u ∈ backfillValues S files, u.1 = ((usePartition S files ns)[i]).id →
      u.2 = (partitionValues S files ns)[i] := by
    intro u hu hid
    obtain ⟨ns', -, hu⟩ := List.mem_flatMap.mp hu
    obtain ⟨j, hj, rfl⟩ := List.mem_iff_getElem.mp hu
    rw [List.length_zip, List.length_map, lt_min_iff] at hj
    rw [List.getElem_zip, List.getElem_map] at hid
    obtain ⟨hmem', hns'⟩ := mem_usePartition.mp (List.getElem_mem hj.1)
    have hsame := List.inj_on_of_nodup_map hids hmem' hmem hid
    obtain rfl : ns' = ns := by rw [← hns', hsame, hns]
    obtain rfl := (nodup_usePartition hids).getElem_inj_iff.mp hsame
    rw [List.getElem_zip]
    rfl
  have hsome : (((usePartition S files ns)[i]).id, (partitionValues S files ns)[i]) ∈
      backfillValues S files := by
    refine List.mem_flatMap.mpr ⟨ns, List.mem_dedup.mpr (List.mem_map.mpr ⟨_, hmem, hns⟩), ?_⟩
    refine List.mem_iff_getElem.mpr ⟨i, ?_, ?_⟩
    · rw [List.length_zip, List.length_map, lt_min_iff]
      exact ⟨hi, hi'⟩
    · rw [List.getElem_zip, List.getElem_map]
      rfl
  unfold backfilledValue
  cases hfind : (backfillValues S files).find? fun u => u.1 = ((usePartition S files ns)[i]).id with
  | none => exact absurd (List.find?_eq_none.mp hfind _ hsome) (by simp)
  | some u =>
    have hid : u.1 = ((usePartition S files ns)[i]).id := by simpa using List.find?_some hfind
    exact congrArg S.affinity (hfound u (List.mem_of_find?_eq_some hfind) hid)

theorem map_backfilledValue (hids : (files.map fun r => r.id).Nodup) :
    (usePartition S files ns).map (backfilledValue S files) =
      (partitionValues S files ns).map S.affinity := by
  refine List.ext_getElem (by simp [length_partitionValues]) fun i hi hi' => ?_
  rw [List.length_map] at hi hi'
  rw [List.getElem_map, List.getElem_map, backfilledValue_getElem hids hi hi']

/-- The query before the backfill finds a row out of range. -/
def outOfRange (S : Sqlite) (files : List FilesV4) : Bool :=
  files.any fun r => decide (S.rank (r.seconds S) < 0 ∨ (recencySecondsMax : ℚ) < S.rank (r.seconds S))

theorem outOfRange_eq_false_iff (hcols : ∀ r ∈ files, r.IntegerColumns) :
    outOfRange S files = false ↔ ∀ r ∈ files, 0 ≤ r.lastUse ∧ r.lastUse ≤ recencySecondsMax := by
  rw [outOfRange, List.any_eq_false]
  refine forall₂_congr fun r hr => ?_
  rw [decide_eq_true_eq, (hcols r hr).rank_seconds, not_or, not_lt, not_lt, Int.cast_le,
    Int.cast_nonneg_iff]

theorem seconds_of_mem_ruleSeconds (h : ∀ r ∈ files, 0 ≤ r.lastUse ∧ r.lastUse ≤ recencySecondsMax)
    (ns : SqlValue) : ∀ s ∈ ruleSeconds files ns, 0 ≤ s ∧ s ≤ recencySecondsMax := by
  intro s hs
  obtain ⟨r, hr, rfl⟩ := List.mem_map.mp hs
  exact h r (mem_ruleOrder.mp hr).1

/-- Then the column's CHECK passes when the values of the rule are below the limit. -/
theorem backfill_check_iff (hids : (files.map fun r => r.id).Nodup)
    (hcols : ∀ r ∈ files, r.IntegerColumns)
    (hseconds : ∀ r ∈ files, 0 ≤ r.lastUse ∧ r.lastUse ≤ recencySecondsMax) :
    (∀ r ∈ files, useValueCheck (backfilledValue S files r) = true) ↔
      ∀ ns, ∀ v ∈ ruleValues files ns, v < useValueLimit := by
  have hpartition : ∀ ns, (∀ r ∈ usePartition S files ns,
      useValueCheck (backfilledValue S files r) = true) ↔ ∀ v ∈ ruleValues files ns, v < useValueLimit := by
    intro ns
    have hwindow := (windowValues_integer (S := S)
      (seconds_of_mem_ruleSeconds hseconds ns)).1
    rw [← map_seconds_eq (S := S) hcols] at hwindow
    have hmap : (∀ w ∈ (usePartition S files ns).map (backfilledValue S files), useValueCheck w = true) ↔
        ∀ w ∈ (partitionValues S files ns).map S.affinity, useValueCheck w = true := by
      rw [map_backfilledValue hids]
    rw [List.forall_mem_map, List.forall_mem_map] at hmap
    exact hmap.trans hwindow
  rw [← forall_congr' hpartition]
  exact ⟨fun h ns r hr => h r (mem_usePartition.mp hr).1,
    fun h r hr => h r.ns r (mem_usePartition.mpr ⟨hr, rfl⟩)⟩

/-- The values that are stored. -/
theorem map_backfilledValue_eq (hids : (files.map fun r => r.id).Nodup)
    (hcols : ∀ r ∈ files, r.IntegerColumns) (h : RuleFits files) (ns : SqlValue) :
    (ruleOrder files ns).map (backfilledValue S files) = (ruleValues files ns).map .integer := by
  have hwindow := (windowValues_integer (S := S)
    (seconds_of_mem_ruleSeconds h.seconds ns)).2 (h.values ns)
  rw [← usePartition_eq (S := S) hcols, map_backfilledValue hids, partitionValues, map_seconds_eq hcols,
    hwindow, List.map_map]
  exact List.map_congr_left fun v _ => S.affinity_integer v

/-! ## The check on the migrated rows -/

/-- The rows of version 6 with the values of the backfill. -/
def backfilledFiles (S : Sqlite) (files : List FilesV4) : List FilesV6 :=
  files.map fun r => ⟨r.toFilesV3, backfilledValue S files r⟩

/-- The snapshot's rows find their values. -/
theorem joined_eq (hids : (files.map fun r => r.id).Nodup) (payload : FilesV4 → Option PayloadsV3) :
    ((files.map fun r => r.start (payload r)).filterMap fun s =>
      ((backfilledFiles S files).find? fun f => f.id = s.id).map fun f => (s, f.lastUsedUs)) =
        files.map fun r => (r.start (payload r), backfilledValue S files r) := by
  rw [List.filterMap_map, ← List.filterMap_eq_map]
  refine List.filterMap_congr fun r hr => ?_
  have hfind : (backfilledFiles S files).find? (fun f => f.id = r.id) =
      some ⟨r.toFilesV3, backfilledValue S files r⟩ := by
    rw [backfilledFiles, List.find?_map]
    cases hfound : files.find? ((fun f : FilesV6 => decide (f.id = r.id)) ∘ fun r =>
        ⟨r.toFilesV3, backfilledValue S files r⟩) with
    | none => exact absurd (List.find?_eq_none.mp hfound r hr) (by simp)
    | some r' =>
      have hid : r'.id = r.id := by simpa using List.find?_some hfound
      rw [List.inj_on_of_nodup_map hids (List.mem_of_find?_eq_some hfound) hr hid]
      rfl
  rw [Function.comp_apply, show (r.start (payload r)).id = r.id from rfl, hfind]
  rfl

/-- A row of a namespace, with its stored value, as the check reads it. -/
def storedRow (S : Sqlite) (files : List FilesV4) (r : FilesV4) : SqlValue × SqlValue × SqlValue :=
  (r.ns, r.seconds S, backfilledValue S files r)

/-- The check reads the rows namespace by namespace, in the order of the window's partitions. -/
theorem validateUseOrder_eq (db : Store FilesV4 PayloadsV3)
    (hids : (db.files.map fun r => r.id).Nodup) (hns : ∀ r ∈ db.files, ∃ ns, r.ns = .text ns) :
    validateUseOrder S (db.leftJoin FilesV4.start) (backfilledFiles S db.files) =
      checkUseOrder "" none ((sortBy S.rank (db.files.map fun r => r.ns).dedup).flatMap fun ns =>
        (usePartition S db.files ns).map (storedRow S db.files)) := by
  have hjoined := joined_eq (S := S) hids fun r => db.payloads.find? fun p => rowid p = rowid r
  have hsorted : sortBy (fun r => toLex (S.rank r.ns, windowKey S r)) db.files =
      (sortBy S.rank (db.files.map fun r => r.ns).dedup).flatMap fun ns => usePartition S db.files ns := by
    refine sortBy_lex_eq_flatMap (fun ns hmem ns' hmem' hrank => ?_) ?_
    · obtain ⟨r, hr, rfl⟩ := List.mem_map.mp hmem
      obtain ⟨r', hr', rfl⟩ := List.mem_map.mp hmem'
      obtain ⟨t, ht⟩ := hns r hr
      obtain ⟨t', ht'⟩ := hns r' hr'
      rw [ht, ht'] at hrank ⊢
      rw [S.rank_text t t' hrank]
    · refine (hids.of_map _).map_on fun r hr r' hr' hkey => ?_
      have hid : r.id = r'.id := congrArg (fun k => (ofLex (ofLex (ofLex k).2).2).2) hkey
      exact List.inj_on_of_nodup_map hids hr hr' hid
  have hmap : sortBy (fun j : StartRow × SqlValue => toLex (S.rank j.1.ns, toLex (S.rank (j.1.seconds S),
      toLex (S.rank j.1.updatedAt, j.1.id)))) (db.files.map fun r =>
        (r.start (db.payloads.find? fun p => rowid p = rowid r), backfilledValue S db.files r)) =
      (sortBy (fun r => toLex (S.rank r.ns, windowKey S r)) db.files).map fun r =>
        (r.start (db.payloads.find? fun p => rowid p = rowid r), backfilledValue S db.files r) :=
    sortBy_map fun _ _ _ _ => Iff.rfl
  unfold validateUseOrder Store.leftJoin
  simp only [hjoined, hmap, hsorted, List.map_map, List.map_flatMap]
  rfl

/-- The rows of a namespace have the values of the rule. -/
theorem map_storedRow (hids : (files.map fun r => r.id).Nodup)
    (hcols : ∀ r ∈ files, r.IntegerColumns) (h : RuleFits files) (name : String) :
    (usePartition S files (.text name)).map (storedRow S files) =
      ((ruleSeconds files (.text name)).zip (ruleValues files (.text name))).map (checkedRow name) := by
  have hvalues := map_backfilledValue_eq (S := S) hids hcols h (.text name)
  have hzip : (usePartition S files (.text name)).map (storedRow S files) =
      (((ruleOrder files (.text name)).map FilesV4.lastUse).zip
        ((ruleOrder files (.text name)).map (backfilledValue S files))).map
          fun p => (.text name, .integer p.1, p.2) := by
    rw [usePartition_eq hcols, List.zip_map', List.map_map]
    refine List.map_congr_left fun r hr => ?_
    obtain ⟨hmem, hns⟩ := mem_ruleOrder.mp hr
    rw [storedRow, hns, (hcols r hmem).seconds_eq]
    rfl
  rw [hzip, hvalues, List.zip_map_right, List.map_map]
  rfl

/-- The check accepts every backfill whose values are in range. -/
theorem validateUseOrder_of_fits (db : Store FilesV4 PayloadsV3)
    (hids : (db.files.map fun r => r.id).Nodup) (hcols : ∀ r ∈ db.files, r.IntegerColumns)
    (h : RuleFits db.files) :
    validateUseOrder S (db.leftJoin FilesV4.start) (backfilledFiles S db.files) = .ok () := by
  have hmem : ∀ ns ∈ sortBy S.rank (db.files.map fun r => r.ns).dedup, ∃ r ∈ db.files, r.ns = ns := by
    intro ns hns
    rwa [mem_sortBy, List.mem_dedup, List.mem_map] at hns
  obtain ⟨names, hnames⟩ : sortBy S.rank (db.files.map fun r => r.ns).dedup ∈
      Set.range (List.map SqlValue.text) := by
    rw [Set.range_list_map]
    intro ns hns
    obtain ⟨r, hr, rfl⟩ := hmem ns hns
    obtain ⟨name, hname⟩ := (hcols r hr).ns
    exact ⟨name, hname.symm⟩
  have hnodup : names.Nodup := by
    refine List.Nodup.of_map SqlValue.text ?_
    rw [hnames]
    exact (sortBy_perm _ _).nodup_iff.mpr (List.nodup_dedup _)
  rw [validateUseOrder_eq db hids fun r hr => (hcols r hr).ns, ← hnames, List.flatMap_map]
  simp only [map_storedRow hids hcols h]
  refine checkUseOrder_flatMap names "" none hnodup (.inl rfl) fun name hname => ⟨?_, ?_, ?_⟩
  · obtain ⟨r, hr, hns⟩ := hmem (.text name) (by rw [← hnames]; exact List.mem_map_of_mem hname)
    exact List.ne_nil_of_mem (List.mem_map_of_mem (mem_ruleOrder.mpr ⟨hr, hns⟩))
  · exact seconds_of_mem_ruleSeconds h.seconds (.text name)
  · exact h.values (.text name)

end Rows

/-! ## The range of the arithmetic -/

section Exact

variable {files : List FilesV4}

/-- The terms of the window, and the maxima so far. -/
def ruleTerms (files : List FilesV4) (ns : SqlValue) : List ℤ :=
  ((ruleSeconds files ns).zipIdx 1).map fun p => p.1 * 1000000 - p.2

def ruleMaxima (files : List FilesV4) (ns : SqlValue) : List ℤ := running max (ruleTerms files ns)

/-- The integers that the window and the recurrence compute are `i64`s. -/
structure NoOverflow (files : List FilesV4) (ns : SqlValue) : Prop where
  floors : ∀ s ∈ ruleSeconds files ns, InI64 (s * 1000000)
  terms : ∀ t ∈ ruleTerms files ns, InI64 t
  maxima : ∀ m ∈ ruleMaxima files ns, InI64 m
  values : ∀ v ∈ ruleValues files ns, InI64 v
  successors : ∀ v ∈ ruleValues files ns, InI64 (v + 1)

/-- The window and the recurrence of the rule agree on integers. -/
theorem windowed_eq_ruleValues (ns : SqlValue) :
    windowed (fun (s : ℤ) (rn : ℕ) => s * 1000000 - rn) max (fun rn m => rn + m)
      (ruleSeconds files ns) = ruleValues files ns := by
  have hclosed := windowed_eq_climb (1 : ℤ) ((ruleSeconds files ns).map fun s => s * 1000000)
  simp only [nsmul_eq_mul, mul_one, windowed_map] at hclosed
  exact hclosed

theorem nonneg_of_mem_ruleValues (h : RuleFits files) {ns : SqlValue} {v : ℤ}
    (hv : v ∈ ruleValues files ns) : 0 ≤ v := by
  have hseconds := seconds_of_mem_ruleSeconds h.seconds ns
  unfold ruleValues at hv
  cases hlist : ruleSeconds files ns with
  | nil =>
    rw [hlist] at hv
    exact absurd hv List.not_mem_nil
  | cons s seconds =>
    rw [hlist] at hv hseconds
    have hle : s * 1000000 ≤ v := le_of_mem_climbFrom 1 (by decide) hv
    have h0 := (hseconds s List.mem_cons_self).1
    omega

/-- Values that increase below the limit are not more than the limit. -/
theorem length_ruleSeconds_le (h : RuleFits files) (ns : SqlValue) :
    ((ruleSeconds files ns).length : ℤ) ≤ useValueLimit := by
  have hincreasing : (ruleValues files ns).Pairwise (· < ·) := pairwise_climb 1 (by decide) _
  have hsubset : (ruleValues files ns).toFinset ⊆ Finset.Ico 0 useValueLimit := by
    intro v hv
    have hv := List.mem_toFinset.mp hv
    exact Finset.mem_Ico.mpr ⟨nonneg_of_mem_ruleValues h hv, h.values ns v hv⟩
  have hcard := Finset.card_le_card hsubset
  rw [List.toFinset_card_of_nodup (hincreasing.imp fun hlt => hlt.ne), Int.card_Ico, ruleValues,
    length_climb, List.length_map] at hcard
  unfold useValueLimit at hcard ⊢
  omega

theorem noOverflow_of_fits (h : RuleFits files) (ns : SqlValue) : NoOverflow files ns := by
  have hfloor : ∀ s ∈ ruleSeconds files ns, 0 ≤ s * 1000000 ∧ s * 1000000 ≤ useValueLimit := by
    intro s hs
    obtain ⟨h0, hle⟩ := seconds_of_mem_ruleSeconds h.seconds ns s hs
    exact ⟨by omega, mul_le_useValueLimit hle⟩
  have hterm : ∀ t ∈ ruleTerms files ns, -useValueLimit ≤ t ∧ t ≤ useValueLimit := by
    intro t ht
    obtain ⟨⟨s, rn⟩, hp, rfl⟩ := List.mem_map.mp ht
    obtain ⟨hrn, hlt, hs⟩ := List.mem_zipIdx hp
    obtain ⟨h0, hle⟩ := hfloor s (hs ▸ List.getElem_mem _)
    have hlength := length_ruleSeconds_le h ns
    simp only
    omega
  have hmaxima : ∀ m ∈ ruleMaxima files ns, m ∈ ruleTerms files ns :=
    fun m hm => mem_of_mem_running (fun a b => (max_choice a b)) hm
  unfold useValueLimit at hfloor hterm
  refine ⟨fun s hs => ?_, fun t ht => ?_, fun m hm => ?_, fun v hv => ?_, fun v hv => ?_⟩
  · obtain ⟨h0, hle⟩ := hfloor s hs
    exact ⟨by omega, by omega⟩
  · obtain ⟨h0, hle⟩ := hterm t ht
    exact ⟨by omega, by omega⟩
  · obtain ⟨h0, hle⟩ := hterm m (hmaxima m hm)
    exact ⟨by omega, by omega⟩
  · have h0 := nonneg_of_mem_ruleValues h hv
    have hlt := h.values ns v hv
    unfold useValueLimit at hlt
    exact ⟨by omega, by omega⟩
  · have h0 := nonneg_of_mem_ruleValues h hv
    have hlt := h.values ns v hv
    unfold useValueLimit at hlt
    exact ⟨by omega, by omega⟩

end Exact

/-! ## The migration -/

section Migration

variable {S : Sqlite} {n : ℕ} {db : Store FilesV4 PayloadsV3}

/-- The indexes of a database of version 5 are the two of that version and public user indexes. -/
theorem indexes_of_policy {physical : ℤ} (h : validateObjectPolicy physical 5 db = .ok ()) :
    (∀ name ∈ requiredIndexes 5, db.indexes.any (·.name = name) = true) ∧
      ∀ index ∈ db.indexes, index.name ∈ requiredIndexes 5 ∨ index.isUser = true := by
  unfold validateObjectPolicy at h
  split_ifs at h with hunexpected hmissing
  refine ⟨fun name hname => ?_, fun index hindex => ?_⟩
  · by_contra hnone
    exact hmissing (List.any_eq_true.mpr ⟨name, hname, by simpa using hnone⟩)
  · by_contra hneither
    rw [not_or] at hneither
    exact hunexpected (List.any_eq_true.mpr ⟨index, hindex, by simp [hneither]⟩)

theorem dropIndex_of_any {name : String} {indexes : List IndexDef}
    (h : indexes.any (·.name = name) = true) :
    dropIndex name indexes = .ok (indexes.filter (·.name ≠ name)) := if_pos h

/-- The indexes the step leaves. -/
def userIndexesOf (indexes : List IndexDef) : List IndexDef :=
  (indexes.filter (·.name ≠ "idx_files_lru")).filter (·.name ≠ "idx_files_namespace_path")

/-- The database after the step, when the values are in range. -/
def backfilled (S : Sqlite) (db : Store FilesV4 PayloadsV3) : Store FilesV6 PayloadsV3 :=
  ⟨backfilledFiles S db.files, db.payloads, db.sequence, userIndexesOf db.indexes ++
    [⟨"idx_files_use", "CREATE INDEX idx_files_use ON files(namespace, last_used_us)"⟩]⟩

theorem validateSequence_congr {F F' P P' : Type} [Rowid F] [Rowid F'] {physical physical' k : ℤ}
    {db : Store F P} {db' : Store F' P'} (hids : db'.files.map rowid = db.files.map rowid)
    (hsequence : db'.sequence = db.sequence) (h : validateSequence physical db = .ok k) :
    validateSequence physical' db' = .ok k := by
  have hlength : db'.files.length = db.files.length := by simpa using congrArg List.length hids
  unfold validateSequence at h ⊢
  rw [hids, hsequence, hlength]
  by_cases hcontract : db.sequence.length > 1 ∨ db.sequence.any (fun row => row.1 ≠ "files") = true
  · rw [if_pos hcontract] at h
    exact absurd h (by simp)
  rw [if_neg hcontract] at h ⊢
  cases hseq : db.sequence with
  | nil =>
    simp only [hseq] at h ⊢
    split_ifs at h with hempty
    rw [if_pos hempty]
    exact h
  | cons row rest =>
    obtain ⟨name, value⟩ := row
    simp only [hseq] at h ⊢
    cases value with
    | integer sequence =>
      simp only at h ⊢
      split_ifs at h with hpos
      rw [if_pos hpos]
      exact h
    | null => exact absurd h (by simp)
    | real bits => exact absurd h (by simp)
    | text t => exact absurd h (by simp)
    | blob bytes => exact absurd h (by simp)

theorem hasForeignKeyViolation_congr {F F' P : Type} [Rowid F] [Rowid F'] [Rowid P] {files : List F}
    {files' : List F'} (hids : files'.map rowid = files.map rowid) (payloads : List P) :
    hasForeignKeyViolation files' payloads = hasForeignKeyViolation files payloads := by
  have hany : ∀ id : ℤ, files'.any (fun r => rowid r = id) = files.any fun r => rowid r = id := by
    intro id
    have h := congrArg (List.any · fun i => decide (i = id)) hids
    rwa [List.any_map, List.any_map] at h
  simp only [hasForeignKeyViolation, hany]

/-- The migrated database is one of version 6. -/
theorem validateVersion_backfilled {physical k : ℤ}
    (h : validateVersion physical 5 [4, 5] db = .ok k) :
    validateVersion 6 6 [6] (backfilled S db) = .ok k := by
  obtain ⟨-, hpolicy, hsequence, hforeign⟩ := validateVersion_eq_ok_iff.mp h
  have hrowids : (backfilled S db).files.map rowid = db.files.map rowid := by
    rw [backfilled, backfilledFiles, List.map_map]
    rfl
  refine validateVersion_eq_ok_iff.mpr ⟨List.mem_singleton_self 6, ?_,
    validateSequence_congr hrowids rfl hsequence, ?_⟩
  · obtain ⟨-, hall⟩ := indexes_of_policy hpolicy
    unfold validateObjectPolicy
    rw [if_neg, if_neg]
    · simp [requiredIndexes, backfilled]
    · rw [List.any_eq_true]
      rintro ⟨index, hindex, hunexpected⟩
      rcases List.mem_append.mp hindex with hindex | hindex
      · rw [userIndexesOf, List.mem_filter, List.mem_filter] at hindex
        obtain ⟨⟨hmem, hlru⟩, hpath⟩ := hindex
        rcases hall index hmem with hname | huser
        · simp [requiredIndexes] at hname hlru hpath
          tauto
        · simp [huser] at hunexpected
      · rw [List.mem_singleton.mp hindex] at hunexpected
        exact absurd hunexpected (by decide)
  · unfold validateForeignKeyIntegrity at hforeign ⊢
    split_ifs at hforeign with hviolation
    rw [if_neg]
    rwa [hasForeignKeyViolation_congr hrowids]

theorem backfill_eq_ok_iff {files : List FilesV4} {updated : List (FilesV4 × SqlValue)} :
    backfill S files = .ok updated ↔ (∀ r ∈ files, useValueCheck (backfilledValue S files r) = true) ∧
      updated = files.map fun r => (r, backfilledValue S files r) := by
  have hall : ((files.map fun r => (r, backfilledValue S files r)).all fun u => useValueCheck u.2) = true ↔
      ∀ r ∈ files, useValueCheck (backfilledValue S files r) = true := by
    rw [List.all_map, List.all_eq_true]
    rfl
  unfold backfill
  simp only
  by_cases h : ∀ r ∈ files, useValueCheck (backfilledValue S files r) = true
  · rw [if_pos (hall.mpr h), Except.ok.injEq, eq_comm]
    exact (and_iff_right h).symm
  · rw [if_neg (hall.not.mpr h)]
    simp [h]

/-- Both checks pass exactly on the rows that fit the rule. -/
theorem checks_iff (hids : (db.files.map fun r => r.id).Nodup)
    (hcols : ∀ r ∈ db.files, r.IntegerColumns) :
    (outOfRange S db.files = false ∧ ∃ updated, backfill S db.files = .ok updated) ↔
      RuleFits db.files := by
  constructor
  · rintro ⟨hrange, updated, hbackfill⟩
    have hseconds := (outOfRange_eq_false_iff hcols).mp hrange
    exact ⟨hseconds, (backfill_check_iff hids hcols hseconds).mp (backfill_eq_ok_iff.mp hbackfill).1⟩
  · intro h
    exact ⟨(outOfRange_eq_false_iff hcols).mpr h.seconds, _, backfill_eq_ok_iff.mpr
      ⟨(backfill_check_iff hids hcols h.seconds).mpr h.values, rfl⟩⟩

theorem sql_quiet {α : Type} {outcome : Except SchemaError α} {a : α} (h : outcome = .ok a) :
    sql .quiet outcome n = .ok (a, n + 1) := by
  rw [h]
  rfl

theorem hook_quiet (point : MigrationPoint) : hook .quiet point n = .ok ((), n) := rfl

theorem validateEffectiveVersion_quiet {F P : Type} [Rowid F] [Rowid P] {version : ℕ}
    {versions : List ℕ} {db : Store F P} {k : ℤ} (h : validateVersion version version versions db = .ok k) :
    validateEffectiveVersion .quiet version versions db n = .ok ((), n + 1) :=
  StateExcept.bind_of_ok (sql_quiet h)

/-- When nothing fails from outside, the step succeeds on rows that fit the rule. -/
theorem migrateV5ToV6_quiet {physical k : ℤ} (hversion : validateVersion physical 5 [4, 5] db = .ok k)
    (hids : (db.files.map fun r => r.id).Nodup) (hcols : ∀ r ∈ db.files, r.IntegerColumns)
    (h : RuleFits db.files) (n : ℕ) :
    ∃ n', migrateV5ToV6 S .quiet db n = .ok (backfilled S db, n') := by
  obtain ⟨hrange, updated, hbackfill⟩ := (checks_iff (S := S) hids hcols).mpr h
  obtain ⟨-, rfl⟩ := backfill_eq_ok_iff.mp hbackfill
  have hin : (if (db.files.any fun r =>
      decide (S.rank (r.seconds S) < 0 ∨ (recencySecondsMax : ℚ) < S.rank (r.seconds S))) then
        .error recencyOutOfRange else .ok () : Except SchemaError Unit) = .ok () :=
    if_neg (Bool.eq_false_iff.mp hrange)
  obtain ⟨-, hpolicy, -, -⟩ := validateVersion_eq_ok_iff.mp hversion
  obtain ⟨hrequired, -⟩ := indexes_of_policy hpolicy
  have hlru := dropIndex_of_any (hrequired "idx_files_lru" (by decide))
  have hpath : dropIndex "idx_files_namespace_path" (db.indexes.filter (·.name ≠ "idx_files_lru")) =
      .ok (userIndexesOf db.indexes) := by
    refine dropIndex_of_any ?_
    obtain ⟨index, hindex, hname⟩ := List.any_eq_true.mp (hrequired "idx_files_namespace_path" (by decide))
    have hname : index.name = "idx_files_namespace_path" := by simpa using hname
    refine List.any_eq_true.mpr ⟨index, List.mem_filter.mpr ⟨hindex, ?_⟩, by simpa using hname⟩
    rw [hname]
    decide
  have hfiles : (db.files.map fun r => (r, backfilledValue S db.files r)).map
      (fun u => (⟨u.1.toFilesV3, u.2⟩ : FilesV6)) = backfilledFiles S db.files := List.map_map
  refine ⟨n + 8, ?_⟩
  unfold migrateV5ToV6
  rw [StateExcept.bind_of_ok (sql_quiet rfl), StateExcept.bind_of_ok (hook_quiet _),
    StateExcept.bind_of_ok (sql_quiet hin),
    StateExcept.bind_of_ok (sql_quiet hbackfill), StateExcept.bind_of_ok (hook_quiet _),
    StateExcept.bind_of_ok (sql_quiet hlru), StateExcept.bind_of_ok (sql_quiet hpath),
    StateExcept.bind_of_ok (hook_quiet _), StateExcept.bind_of_ok (sql_quiet rfl), hfiles,
    StateExcept.bind_of_ok (hook_quiet _), StateExcept.bind_of_ok (sql_quiet rfl)]
  exact StateExcept.bind_of_ok (validateEffectiveVersion_quiet (validateVersion_backfilled hversion))

/-- A stored value is one of the rule's. -/
theorem backfilledValue_mem (hids : (db.files.map fun r => r.id).Nodup)
    (hcols : ∀ r ∈ db.files, r.IntegerColumns) (h : RuleFits db.files) {r : FilesV4}
    (hr : r ∈ db.files) : ∃ v ∈ ruleValues db.files r.ns, backfilledValue S db.files r = .integer v := by
  have hmem : backfilledValue S db.files r ∈ (ruleOrder db.files r.ns).map (backfilledValue S db.files) :=
    List.mem_map_of_mem (mem_ruleOrder.mpr ⟨hr, rfl⟩)
  rw [map_backfilledValue_eq hids hcols h] at hmem
  obtain ⟨v, hv, heq⟩ := List.mem_map.mp hmem
  exact ⟨v, hv, heq.symm⟩

/-- The backfill equals its rule. -/
structure BackfillMeetsRule (S : Sqlite) (db : Store FilesV4 PayloadsV3) : Prop where
  /-- The window is the recurrence. -/
  closedForm : ∀ ns, windowed (fun (s : ℤ) (rn : ℕ) => s * 1000000 - rn) max (fun rn m => rn + m)
    (ruleSeconds db.files ns) = ruleValues db.files ns
  increasing : ∀ ns, (ruleValues db.files ns).Pairwise (· < ·)
  /-- Nothing failing from outside, the step and then the check succeed on the rows in range. -/
  succeeds : ∀ n, (∃ db' n', migrateV5ToV6 S .quiet db n = .ok (db', n') ∧
    validateUseOrder S (db.leftJoin FilesV4.start) db'.files = .ok ()) ↔ RuleFits db.files
  noOverflow : RuleFits db.files → ∀ ns, NoOverflow db.files ns ∧
    windowValues S ((usePartition S db.files ns).map fun r => r.seconds S) =
      (ruleValues db.files ns).map .integer ∧
    (ruleOrder db.files ns).map (backfilledValue S db.files) = (ruleValues db.files ns).map .integer
  /-- The check accepts what passed the range check and the column's. -/
  accepted : outOfRange S db.files = false → ∀ updated, backfill S db.files = .ok updated →
    validateUseOrder S (db.leftJoin FilesV4.start)
      (updated.map fun u => ⟨u.1.toFilesV3, u.2⟩) = .ok ()
  /-- Every migrated value is in the range of an import. -/
  importable : ∀ faults n db' n', migrateV5ToV6 S faults db n = .ok (db', n') →
    ∀ r ∈ db'.files, ∃ v, r.lastUsedUs = .integer v ∧ 0 ≤ v ∧ v < useValueLimit

theorem backfill_meetsRule (S : Sqlite) (db : Store FilesV4 PayloadsV3) (filesHighWater : ℤ)
    (hclass : classify ⟨5, .v4 db⟩ = .ok (.version 5 filesHighWater))
    (hids : (db.files.map fun r => r.id).Nodup) (hcols : ∀ r ∈ db.files, r.IntegerColumns) :
    BackfillMeetsRule S db := by
  have hversion : validateVersion 5 5 [4, 5] db = .ok filesHighWater := classify_ok hclass
  have haccepted : RuleFits db.files → validateUseOrder S (db.leftJoin FilesV4.start)
      (backfilledFiles S db.files) = .ok () := validateUseOrder_of_fits db hids hcols
  have hmigrated : ∀ {faults n db' n'}, migrateV5ToV6 S faults db n = .ok (db', n') →
      RuleFits db.files ∧ db'.files = backfilledFiles S db.files := by
    intro faults n db' n' h
    obtain ⟨hrange, updated, -, -, hbackfill, -, -, rfl⟩ := migrateV5ToV6_ok h
    refine ⟨(checks_iff hids hcols).mp ⟨hrange, updated, hbackfill⟩, ?_⟩
    rw [backfill_ok hbackfill]
    exact List.map_map
  refine ⟨fun ns => windowed_eq_ruleValues ns, fun ns => pairwise_climb 1 (by decide) _,
    fun n => ⟨?_, fun h => ?_⟩, fun h ns => ⟨noOverflow_of_fits h ns, ?_,
      map_backfilledValue_eq hids hcols h ns⟩, fun hrange updated hbackfill => ?_, ?_⟩
  · rintro ⟨db', n', h, -⟩
    exact (hmigrated h).1
  · obtain ⟨n', hok⟩ := migrateV5ToV6_quiet (S := S) hversion hids hcols h n
    exact ⟨backfilled S db, n', hok, haccepted h⟩
  · rw [map_seconds_eq hcols]
    exact (windowValues_integer (seconds_of_mem_ruleSeconds h.seconds ns)).2 (h.values ns)
  · rw [backfill_ok hbackfill, List.map_map]
    exact haccepted ((checks_iff hids hcols).mp ⟨hrange, updated, hbackfill⟩)
  · intro faults n db' n' h r hr
    obtain ⟨hfits, hfiles⟩ := hmigrated h
    rw [hfiles] at hr
    obtain ⟨row, hrow, rfl⟩ := List.mem_map.mp hr
    obtain ⟨v, hv, heq⟩ := backfilledValue_mem (S := S) hids hcols hfits hrow
    exact ⟨v, heq, nonneg_of_mem_ruleValues hfits hv, hfits.values _ v hv⟩

/-- Two rows of one second, and a row of another namespace. -/
def tiedFiles : List FilesV4 :=
  [⟨⟨⟨⟨1, .text "/a", .integer 0, .integer 1, .text "h", .integer 10⟩, .text "a"⟩, .integer 0⟩, .integer 0⟩,
   ⟨⟨⟨⟨2, .text "/b", .integer 0, .integer 1, .text "h", .integer 7⟩, .text "a"⟩, .integer 0⟩, .integer 10⟩,
   ⟨⟨⟨⟨3, .text "/a", .integer 0, .integer 1, .text "h", .integer 5⟩, .text "b"⟩, .integer 0⟩, .integer 10⟩]

def tiedStore : Store FilesV4 PayloadsV3 :=
  ⟨tiedFiles, [], [("files", .integer 3)], [⟨"idx_files_lru", ""⟩, ⟨"idx_files_namespace_path", ""⟩]⟩

theorem backfill_meetsRule_sample :
    ruleValues tiedStore.files (.text "a") = [10000000, 10000001] ∧
      BackfillMeetsRule Sqlite.exact tiedStore := by
  refine ⟨by decide, backfill_meetsRule Sqlite.exact tiedStore 3 (by decide) (by decide) ?_⟩
  have hi64 : ∀ i ∈ [(0 : ℤ), 5, 7, 10], InI64 i := by decide
  intro r hr
  simp only [tiedStore, tiedFiles, List.mem_cons, List.not_mem_nil, or_false] at hr
  rcases hr with rfl | rfl | rfl
  · exact ⟨⟨_, rfl⟩, ⟨_, rfl, hi64 10 (by decide)⟩, ⟨_, rfl, hi64 0 (by decide)⟩⟩
  · exact ⟨⟨_, rfl⟩, ⟨_, rfl, hi64 7 (by decide)⟩, ⟨_, rfl, hi64 10 (by decide)⟩⟩
  · exact ⟨⟨_, rfl⟩, ⟨_, rfl, hi64 5 (by decide)⟩, ⟨_, rfl, hi64 10 (by decide)⟩⟩

end Migration

end LocalCache
