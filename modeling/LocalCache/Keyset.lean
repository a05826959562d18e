import LocalCache.Selection
import Mathlib.Data.List.Dedup

/-!
# Keyset paging

A list sorted by a key is read in pages : each page is some first elements of those above a
cursor, and the next cursor is the key of the page's last element. `Cut` says where a
cursor cuts the list, and a page moves the cut past itself (`Cut.next`). So pages from a
cursor below every key are the whole list, each element once (`flatten_pages`), whatever the
sizes of the pages.
-/

namespace LocalCache

variable {α χ κ : Type*} [LinearOrder κ]

/-! ## Sorting by distinct keys -/

/-- Lists sorted strictly are equal when they have the same elements. -/
theorem eq_of_pairwise_lt (key : α → κ) {l l' : List α} (h : l.Pairwise fun a b => key a < key b)
    (h' : l'.Pairwise fun a b => key a < key b) (hmem : ∀ a, a ∈ l ↔ a ∈ l') : l = l' := by
  have nodup : ∀ {l : List α}, l.Pairwise (fun a b => key a < key b) → l.Nodup := by
    intro l hl
    refine hl.imp ?_
    rintro a _ hlt rfl
    exact lt_irrefl _ hlt
  refine ((List.perm_ext_iff_of_nodup (nodup h) (nodup h')).mpr hmem).eq_of_pairwise
    (fun a b _ _ hab hba => ?_) h h'
  exact absurd hab (lt_asymm hba)

/-- A list sorted strictly is the sort of any list of the same elements. -/
theorem sortBy_eq_of_perm {key : α → κ} {l l' : List α} (h : l'.Pairwise fun a b => key a < key b)
    (hp : l'.Perm l) : sortBy key l = l' := by
  have hnodup : (l.map key).Nodup := by
    rw [← (hp.map key).nodup_iff]
    exact List.pairwise_map.mpr (h.imp fun hlt => hlt.ne)
  exact eq_of_pairwise_lt key (pairwise_sortBy_lt key hnodup) h fun a =>
    (mem_sortBy key).trans hp.mem_iff.symm

theorem sortBy_filter {key : α → κ} {l : List α} (h : (l.map key).Nodup) (p : α → Bool) :
    sortBy key (l.filter p) = (sortBy key l).filter p :=
  sortBy_eq_of_perm ((pairwise_sortBy_lt key h).sublist List.filter_sublist)
    ((sortBy_perm key l).filter p)

theorem sortBy_map {β κ' : Type*} [LinearOrder κ'] {key : α → κ} {key' : β → κ'} {f : α → β}
    {l : List α} (hf : ∀ a ∈ l, ∀ b ∈ l, key' (f a) ≤ key' (f b) ↔ key a ≤ key b) :
    sortBy key' (l.map f) = (sortBy key l).map f :=
  (List.map_insertionSort _ _ f l fun a ha b hb => (hf a ha b hb).symm).symm

/-- A sort by a pair is the groups of the first key in order, each sorted by the second. -/
theorem sortBy_lex_eq_flatMap {β κ' : Type*} [DecidableEq β] [LinearOrder κ'] {group : α → β}
    {rank : β → κ} {key : α → κ'} {l : List α}
    (hrank : ∀ b ∈ l.map group, ∀ b' ∈ l.map group, rank b = rank b' → b = b')
    (hnodup : (l.map fun a => toLex (rank (group a), key a)).Nodup) :
    sortBy (fun a => toLex (rank (group a), key a)) l =
      (sortBy rank (l.map group).dedup).flatMap fun b => sortBy key (l.filter fun a => group a = b) := by
  have hmem : ∀ {b a}, a ∈ sortBy key (l.filter fun a => group a = b) ↔ a ∈ l ∧ group a = b := by
    intro b a
    rw [mem_sortBy, List.mem_filter, decide_eq_true_eq]
  have hgroups : (sortBy rank (l.map group).dedup).Pairwise fun b b' => rank b < rank b' :=
    pairwise_sortBy_lt rank ((List.nodup_dedup _).map_on fun b hb b' hb' =>
      hrank b (List.mem_dedup.mp hb) b' (List.mem_dedup.mp hb'))
  have hgroup : ∀ b, ((l.filter fun a => group a = b).map key).Nodup := by
    intro b
    refine (hnodup.of_map _ |>.filter _).map_on fun a ha a' ha' hkey => ?_
    obtain ⟨ha, hb⟩ := List.mem_filter.mp ha
    obtain ⟨ha', hb'⟩ := List.mem_filter.mp ha'
    rw [decide_eq_true_eq] at hb hb'
    refine List.inj_on_of_nodup_map hnodup ha ha' ?_
    rw [hb, hb', hkey]
  refine eq_of_pairwise_lt _ (pairwise_sortBy_lt _ hnodup) (List.pairwise_flatMap.mpr ⟨?_, ?_⟩) ?_
  · intro b _
    refine (pairwise_sortBy_lt key (hgroup b)).imp_of_mem fun ha ha' hlt => ?_
    rw [Prod.Lex.toLex_lt_toLex, (hmem.mp ha).2, (hmem.mp ha').2]
    exact .inr ⟨rfl, hlt⟩
  · refine hgroups.imp fun hlt a ha a' ha' => ?_
    rw [Prod.Lex.toLex_lt_toLex, (hmem.mp ha).2, (hmem.mp ha').2]
    exact .inl hlt
  · intro a
    simp only [mem_sortBy, List.mem_flatMap, hmem, List.mem_dedup]
    constructor
    · intro ha
      exact ⟨group a, List.mem_map_of_mem ha, ha, rfl⟩
    · rintro ⟨_, _, ha, _⟩
      exact ha

/-! ## Cuts -/

/-- The cursor `c` cuts the list into the elements done and the rest. -/
structure Cut (key : α → κ) (l : List α) (c : κ) (done rest : List α) : Prop where
  eq : l = done ++ rest
  le : ∀ a ∈ done, key a ≤ c
  lt : ∀ a ∈ rest, c < key a

namespace Cut

variable {key : α → κ} {l done page rest : List α} {c : κ}

theorem start (h : ∀ a ∈ l, c < key a) : Cut key l c [] l :=
  ⟨rfl, by simp, h⟩

/-- A cursor cuts a sorted list into the elements up to it and those above it. -/
theorem of_pairwise (hl : l.Pairwise fun a b => key a < key b) (c : κ) :
    Cut key l c (l.filter fun a => key a ≤ c) (l.filter fun a => c < key a) where
  eq := by
    refine eq_of_pairwise_lt key hl (List.pairwise_append.mpr
      ⟨hl.sublist List.filter_sublist, hl.sublist List.filter_sublist, fun a ha b hb => ?_⟩)
      fun a => ?_
    · simp only [List.mem_filter, decide_eq_true_eq] at ha hb
      exact ha.2.trans_lt hb.2
    · simp only [List.mem_append, List.mem_filter, decide_eq_true_eq, ← and_or_left, le_or_gt,
        and_true]
  le a ha := by simpa using (List.mem_filter.mp ha).2
  lt a ha := by simpa using (List.mem_filter.mp ha).2

theorem filter_eq (h : Cut key l c done rest) : (l.filter fun a => c < key a) = rest := by
  rw [h.eq, List.filter_append, List.filter_eq_nil_iff.mpr, List.filter_eq_self.mpr,
    List.nil_append]
  · simpa using h.lt
  · simpa using h.le

/-- A page moves the cut past itself. -/
theorem next (hl : l.Pairwise fun a b => key a < key b) (h : Cut key l c done (page ++ rest))
    (hne : page ≠ []) : Cut key l (key (page.getLast hne)) (done ++ page) rest := by
  have hpage := hl
  rw [h.eq, List.pairwise_append, List.pairwise_append] at hpage
  obtain ⟨-, ⟨hin, -, hrest⟩, -⟩ := hpage
  refine ⟨by rw [h.eq, List.append_assoc], fun a ha => ?_,
    fun a ha => hrest _ (List.getLast_mem hne) a ha⟩
  rcases List.mem_append.mp ha with ha | ha
  · exact (h.le a ha).trans (h.lt _ (List.mem_append_left _ (List.getLast_mem hne))).le
  · rw [← List.dropLast_append_getLast hne, List.pairwise_append] at hin
    rw [← List.dropLast_append_getLast hne, List.mem_append, List.mem_singleton] at ha
    rcases ha with ha | rfl
    · exact (hin.2.2 a ha _ (List.mem_singleton.mpr rfl)).le
    · simp

end Cut

/-! ## Pages -/

/-- The pages from a cursor up to the first empty one, at most `fuel` of them. -/
def pages (cursor : α → χ) (next : χ → List α) : (fuel : ℕ) → χ → List (List α)
  | 0, _ => []
  | fuel + 1, c =>
    match next c with
    | [] => []
    | a :: page => (a :: page) :: pages cursor next fuel (cursor ((a :: page).getLast (by simp)))

/-- Whether `next` reads pages of `l` : some first elements of those above the cursor, and at
least one if there are any. -/
def ReadsPages (rank : χ → κ) (cursor : α → χ) (l : List α) (next : χ → List α) : Prop :=
  ∀ c, next c <+: (l.filter fun a => rank c < rank (cursor a)) ∧
    ((l.filter fun a => rank c < rank (cursor a)) ≠ [] → next c ≠ [])

/-- The pages are the elements above the cursor, in order, each once. -/
theorem flatten_pages {rank : χ → κ} {cursor : α → χ} {l : List α} {next : χ → List α}
    (hl : l.Pairwise fun a b => rank (cursor a) < rank (cursor b))
    (hnext : ReadsPages rank cursor l next) : ∀ {fuel : ℕ} {c : χ} {done rest : List α},
      Cut (fun a => rank (cursor a)) l (rank c) done rest → rest.length ≤ fuel →
        (pages cursor next fuel c).flatten = rest
  | 0, _, _, rest, _, hfuel => by
    rw [List.length_eq_zero_iff.mp (Nat.le_zero.mp hfuel)]
    rfl
  | fuel + 1, c, done, rest, hcut, hfuel => by
    obtain ⟨hpre, hne⟩ := hnext c
    rw [hcut.filter_eq] at hpre hne
    unfold pages
    cases hpage : next c with
    | nil =>
      by_cases hrest : rest = []
      · rw [hrest]
        rfl
      · exact absurd hpage (hne hrest)
    | cons a page =>
      rw [hpage] at hpre
      obtain ⟨rest', rfl⟩ := hpre
      have hlen : rest'.length ≤ fuel := by
        simp only [List.length_append, List.length_cons] at hfuel
        omega
      rw [List.flatten_cons, flatten_pages hl hnext (hcut.next hl (by simp)) hlen]

theorem flatten_pages_eq_filter {rank : χ → κ} {cursor : α → χ} {l : List α} {next : χ → List α}
    (hl : l.Pairwise fun a b => rank (cursor a) < rank (cursor b))
    (hnext : ReadsPages rank cursor l next) {fuel : ℕ} (hfuel : l.length ≤ fuel) (c : χ) :
    (pages cursor next fuel c).flatten = l.filter fun a => rank c < rank (cursor a) :=
  flatten_pages hl hnext (Cut.of_pairwise hl (rank c)) ((List.length_filter_le _ _).trans hfuel)

end LocalCache
