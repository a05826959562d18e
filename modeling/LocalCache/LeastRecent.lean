import LocalCache.Recency
import LocalCache.Runs
import Mathlib.Data.Finset.Card

/-!
# Forgetting the least recently used

`RecencyOp` is what may be done to a recency list : elements are stored and the list is cut to a
bound, an element is used, elements are dropped, or they are revised in place.

A cut forgets the oldest. So an element is forgotten only after as many others as the bound were
used since it was used itself (`mem_of_survives`), whatever else is stored, used or dropped on the
way. What carries it is where the element stands : everything behind it was used after it
(`Behind`).
-/

namespace LocalCache

universe u v

/-- An operation on a recency list. -/
inductive RecencyOp (α : Type u) (κ : Type v)
  | skip
  | store (as : List α) (bound : Option ℕ)
  | use (k : κ)
  | drop (gone : α → Bool)
  | revise (f : α → α)

namespace RecencyOp

variable {α : Type u} {κ : Type v} [DecidableEq κ] (key : α → κ)

/-- The list after an operation. -/
def run (l : List α) : RecencyOp α κ → List α
  | skip => l
  | store as bound => bound.elim (as.foldl (refresh key) l) fun m =>
      newest m (as.foldl (refresh key) l)
  | use k => l.filter (fun a => key a ≠ k) ++ l.filter (fun a => key a = k)
  | drop gone => l.filter fun a => !gone a
  | revise f => l.map f

/-- The keys an operation stores or uses. -/
def keys : RecencyOp α κ → List κ
  | store as _ => as.map key
  | use k => [k]
  | _ => []

/-- The operation keeps `k` in this list : it does not drop it, and its bound is at least `m`. -/
def Keeps (k : κ) (m : ℕ) (l : List α) : RecencyOp α κ → Prop
  | store _ (some bound) => m ≤ bound
  | drop gone => ∀ a ∈ l, key a = k → gone a = false
  | revise f => ∀ a, key (f a) = key a
  | _ => True

end RecencyOp

section Survival

variable {α : Type u} {κ : Type v} [DecidableEq κ] {key : α → κ} {k : κ} {l : List α}

theorem nodup_foldl_refresh : ∀ {l : List α} (as : List α), (l.map key).Nodup →
    ((as.foldl (refresh key) l).map key).Nodup
  | _, [], h => h
  | _, a :: as, h => nodup_foldl_refresh as (nodup_refresh h a)

/-- A key stands in the list once, so using it does not double it. -/
theorem nodup_use (h : (l.map key).Nodup) (k : κ) :
    (((RecencyOp.use k).run key l).map key).Nodup := by
  rw [RecencyOp.run, List.map_append, List.nodup_append]
  refine ⟨h.sublist (List.filter_sublist.map _), h.sublist (List.filter_sublist.map _), ?_⟩
  rintro _ hi _ hj rfl
  obtain ⟨a, ha, hka⟩ := List.mem_map.mp hi
  obtain ⟨b, hb, hkb⟩ := List.mem_map.mp hj
  have hne : key a ≠ k := by simpa using (List.mem_filter.mp ha).2
  have heq : key b = k := by simpa using (List.mem_filter.mp hb).2
  exact hne (hka.trans (hkb.symm.trans heq))

/-- Every operation that keeps the keys of what it revises keeps them distinct. -/
theorem RecencyOp.nodup_run {op : RecencyOp α κ} (hop : ∀ f, op = .revise f → ∀ a, key (f a) = key a)
    (h : (l.map key).Nodup) : ((op.run key l).map key).Nodup := by
  cases op with
  | skip => exact h
  | store as bound =>
    cases bound with
    | none => exact nodup_foldl_refresh as h
    | some m => exact (nodup_foldl_refresh as h).sublist ((newest_sublist m _).map key)
  | use k => exact nodup_use h k
  | drop gone => exact h.sublist (List.filter_sublist.map key)
  | revise f =>
    have hkeys : l.map (key ∘ f) = l.map key := List.map_congr_left fun a _ => hop f rfl a
    rw [RecencyOp.run, List.map_map, hkeys]
    exact h

/-- `k` stands in the list, and everything behind it is another of the keys `used`. -/
def Behind (key : α → κ) (k : κ) (used : Finset κ) (l : List α) : Prop :=
  ∃ old a new, l = old ++ a :: new ∧ key a = k ∧ ∀ b ∈ new, key b ∈ used.erase k

theorem Behind.mem {used : Finset κ} (h : Behind key k used l) : k ∈ l.map key := by
  obtain ⟨old, a, new, rfl, rfl, -⟩ := h
  exact List.mem_map_of_mem (List.mem_append_right _ List.mem_cons_self)

theorem Behind.mono {used used' : Finset κ} (h : Behind key k used l) (hsub : used ⊆ used') :
    Behind key k used' l := by
  obtain ⟨old, a, new, heq, ha, hnew⟩ := h
  exact ⟨old, a, new, heq, ha, fun b hb => Finset.erase_subset_erase k hsub (hnew b hb)⟩

/-- A key that is last has nothing behind it. -/
theorem behind_of_getLast? (h : (l.getLast?).map key = some k) : Behind key k ∅ l := by
  obtain ⟨a, hlast, ha⟩ := Option.map_eq_some_iff.mp h
  obtain ⟨old, rfl⟩ := List.getLast?_eq_some_iff.mp hlast
  exact ⟨old, a, [], rfl, ha, by simp⟩

theorem Behind.filter {used : Finset κ} (h : Behind key k used l) {p : α → Bool}
    (hp : ∀ a ∈ l, key a = k → p a = true) : Behind key k used (l.filter p) := by
  obtain ⟨old, a, new, rfl, ha, hnew⟩ := h
  refine ⟨old.filter p, a, new.filter p, ?_, ha, fun b hb => hnew b (List.mem_of_mem_filter hb)⟩
  rw [List.filter_append, List.filter_cons_of_pos
    (hp a (List.mem_append_right _ List.mem_cons_self) ha)]

/-- What comes to stand behind `k` was used. -/
theorem Behind.append {used : Finset κ} (h : Behind key k used l) {as : List α} {ks : Finset κ}
    (has : ∀ a ∈ as, key a ≠ k ∧ key a ∈ ks) : Behind key k (used ∪ ks) (l ++ as) := by
  obtain ⟨old, a, new, rfl, ha, hnew⟩ := h
  refine ⟨old, a, new ++ as, by simp, ha, fun b hb => ?_⟩
  rcases List.mem_append.mp hb with hb | hb
  · exact Finset.erase_subset_erase k Finset.subset_union_left (hnew b hb)
  · exact Finset.mem_erase.mpr ⟨(has b hb).1, Finset.mem_union_right _ (has b hb).2⟩

theorem Behind.refresh {used : Finset κ} (h : Behind key k used l) (a : α) :
    Behind key k (used ∪ {key a}) (refresh key l a) := by
  by_cases ha : key a = k
  · exact ⟨l.filter fun b => key b ≠ key a, a, [], rfl, ha, by simp⟩
  · refine (h.filter fun b _ hb => ?_).append fun b hb => ?_
    · simpa [hb] using Ne.symm ha
    · rw [List.mem_singleton.mp hb]
      exact ⟨ha, Finset.mem_singleton_self _⟩

theorem Behind.foldl_refresh : ∀ {l : List α} {used : Finset κ} (as : List α),
    Behind key k used l → Behind key k (used ∪ (as.map key).toFinset) (as.foldl (LocalCache.refresh key) l)
  | _, used, [], h => by simpa using h
  | _, used, a :: as, h => by
    have hrest := (h.refresh a).foldl_refresh as
    rw [List.map_cons, List.toFinset_cons, Finset.insert_eq, ← Finset.union_assoc]
    exact hrest

/-- A key that is used moves to the end. -/
theorem Behind.use {used : Finset κ} (h : Behind key k used l) (k' : κ) :
    Behind key k (used ∪ {k'}) ((RecencyOp.use k').run key l) := by
  by_cases hk : k' = k
  · subst hk
    obtain ⟨a, ha, hka⟩ := List.mem_map.mp h.mem
    have hlast : l.filter (fun a => key a = k') ≠ [] :=
      List.ne_nil_of_mem (List.mem_filter.mpr ⟨ha, by simpa using hka⟩)
    obtain ⟨front, b, hb⟩ := List.eq_nil_or_concat _ |>.resolve_left hlast
    refine ⟨l.filter (fun a => key a ≠ k') ++ front, b, [], ?_, ?_, by simp⟩
    · rw [RecencyOp.run, hb, List.append_assoc, List.concat_eq_append]
    · have hmem : b ∈ l.filter fun a => key a = k' := by simp [hb]
      simpa using (List.mem_filter.mp hmem).2
  · refine (h.filter fun b _ hb => ?_).append fun b hb => ?_
    · simpa [hb] using Ne.symm hk
    · have hb' : key b = k' := by simpa using (List.mem_filter.mp hb).2
      exact ⟨hb'.trans_ne hk, by simp [hb']⟩

/-- Of a list cut to a bound, what stands less far from the end than the bound is left. -/
theorem Behind.newest {used : Finset κ} (h : Behind key k used l) (hnodup : (l.map key).Nodup)
    {m : ℕ} (hm : (used.erase k).card < m) : Behind key k used (newest m l) := by
  obtain ⟨old, a, new, rfl, ha, hnew⟩ := h
  have hlen : new.length ≤ (used.erase k).card := by
    have hsub : (new.map key).Nodup :=
      hnodup.sublist (((List.sublist_cons_self a new).trans (List.sublist_append_right old _)).map key)
    rw [← List.length_map key, ← List.toFinset_card_of_nodup hsub]
    refine Finset.card_le_card fun i hi => ?_
    obtain ⟨b, hb, rfl⟩ := List.mem_map.mp (List.mem_toFinset.mp hi)
    exact hnew b hb
  refine ⟨old.drop ((old ++ a :: new).length - m), a, new, ?_, ha, hnew⟩
  rw [LocalCache.newest, List.drop_append_of_le_length]
  simp only [List.length_append, List.length_cons]
  omega

/-- One operation that keeps `k`, on a list in which fewer others than the bound were used. -/
theorem Behind.run {used : Finset κ} {m : ℕ} (h : Behind key k used l) (hnodup : (l.map key).Nodup)
    {op : RecencyOp α κ} (hop : op.Keeps key k m l)
    (hm : ((used ∪ (op.keys key).toFinset).erase k).card < m) :
    Behind key k (used ∪ (op.keys key).toFinset) (op.run key l) := by
  cases op with
  | skip => exact h.mono Finset.subset_union_left
  | store as bound =>
    cases bound with
    | none => exact h.foldl_refresh as
    | some bound =>
      exact (h.foldl_refresh as).newest (nodup_foldl_refresh as hnodup) (hm.trans_le hop)
  | use k' =>
    rw [RecencyOp.keys, List.toFinset_cons, List.toFinset_nil]
    exact h.use k'
  | drop gone => exact (h.filter fun a hmem ha => by simp [hop a hmem ha]).mono Finset.subset_union_left
  | revise f =>
    refine Behind.mono ?_ Finset.subset_union_left
    obtain ⟨old, a, new, rfl, ha, hnew⟩ := h
    refine ⟨old.map f, f a, new.map f, by simp [RecencyOp.run], (hop a).trans ha, fun b hb => ?_⟩
    obtain ⟨c, hc, rfl⟩ := List.mem_map.mp hb
    rw [hop c]
    exact hnew c hc

/-- An element is forgotten only after `m` others were used, if every bound is at least `m` and
nothing drops it. -/
theorem mem_of_survives {m : ℕ} : ∀ {l : List α} {used : Finset κ} (ops : List (RecencyOp α κ)),
    Behind key k used l → (l.map key).Nodup →
      Along (RecencyOp.run key) (fun l op => op.Keeps key k m l) l ops →
        ((used ∪ (ops.flatMap (RecencyOp.keys key)).toFinset).erase k).card < m →
          k ∈ (runFrom (RecencyOp.run key) l ops).map key
  | _, _, [], h, _, _, _ => h.mem
  | l, used, op :: ops, h, hnodup, ⟨hop, hops⟩, hm => by
    rw [List.flatMap_cons, List.toFinset_append, ← Finset.union_assoc] at hm
    have hrun := h.run hnodup hop ((Finset.card_le_card
      (Finset.erase_subset_erase k Finset.subset_union_left)).trans_lt hm)
    refine mem_of_survives (l := op.run key l) ops hrun ?_ hops hm
    refine RecencyOp.nodup_run (fun f hf => ?_) hnodup
    subst hf
    exact hop

end Survival

end LocalCache
