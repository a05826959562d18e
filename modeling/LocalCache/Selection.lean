import Mathlib.Data.List.Sort
import Mathlib.Data.List.Lex
import Mathlib.Data.Prod.Lex
import Mathlib.Tactic.Common

/-!
# Selection by key : `ORDER BY … LIMIT`

`sortBy key` is the stable sort by a key into a linear order. `Least key n s least` says
that `least` lists the `n` least elements of `s`, in order; a sorted list cut at `n` is
that (`least_take`). `take_filter_take` is over-fetching : to keep `n` elements of a list
after a filter that drops at most `p`, it is enough to fetch `n + p`.
-/

namespace LocalCache

variable {α κ : Type*} [LinearOrder κ] (key : α → κ)

/-- The stable sort by a key. -/
def sortBy (l : List α) : List α := l.insertionSort fun a b => key a ≤ key b

theorem sortBy_perm (l : List α) : (sortBy key l).Perm l := List.perm_insertionSort _ l

@[simp] theorem mem_sortBy {l : List α} {a : α} : a ∈ sortBy key l ↔ a ∈ l :=
  (sortBy_perm key l).mem_iff

@[simp] theorem length_sortBy (l : List α) : (sortBy key l).length = l.length :=
  (sortBy_perm key l).length_eq

theorem pairwise_sortBy (l : List α) : (sortBy key l).Pairwise fun a b => key a ≤ key b := by
  have : Std.Total fun a b : α => key a ≤ key b := ⟨fun a b => le_total (key a) (key b)⟩
  have : IsTrans α fun a b => key a ≤ key b := ⟨fun a b c => le_trans⟩
  exact List.pairwise_insertionSort _ l

/-- Elements with distinct keys are sorted strictly. -/
theorem pairwise_sortBy_lt {l : List α} (h : (l.map key).Nodup) :
    (sortBy key l).Pairwise fun a b => key a < key b := by
  have hne : (sortBy key l).Pairwise fun a b => key a ≠ key b :=
    List.pairwise_map.mp (((sortBy_perm key l).map key).nodup_iff.mpr h)
  exact ((pairwise_sortBy key l).and hne).imp fun ⟨hle, hne⟩ => lt_of_le_of_ne hle hne

/-- `least` lists the `n` least elements of `s` by key, in order. -/
structure Least (n : ℕ) (s least : List α) : Prop where
  sorted : least.Pairwise fun a b => key a < key b
  subset : ∀ a ∈ least, a ∈ s
  length_eq : least.length = min n s.length
  below : ∀ a ∈ least, ∀ b ∈ s, b ∉ least → key a < key b

variable {key}

theorem Least.nodup {n : ℕ} {s least : List α} (h : Least key n s least) : least.Nodup := by
  refine h.sorted.imp ?_
  rintro a _ hlt rfl
  exact lt_irrefl _ hlt

theorem Least.perm {n : ℕ} {s s' least : List α} (h : Least key n s least) (hs : s.Perm s') :
    Least key n s' least where
  sorted := h.sorted
  subset a ha := hs.mem_iff.mp (h.subset a ha)
  length_eq := h.length_eq.trans (by rw [hs.length_eq])
  below a ha b hb := h.below a ha b (hs.mem_iff.mpr hb)

/-- The least elements are determined : of two lists as long, an element of one only would
be below an element of the other only, and above it. -/
theorem Least.unique {n : ℕ} {s l l' : List α} (h : Least key n s l) (h' : Least key n s l') :
    l = l' := by
  have hsub : l ⊆ l' := by
    intro a ha
    by_contra hnot
    obtain ⟨b, hb, hbnot⟩ : ∃ b ∈ l', b ∉ l := by
      by_contra hall
      have hle : (a :: l').length ≤ l.length := by
        refine (List.subperm_of_subset (List.nodup_cons.mpr ⟨hnot, h'.nodup⟩) ?_).length_le
        refine List.cons_subset.mpr ⟨ha, fun b hb => ?_⟩
        by_contra hbnot
        exact hall ⟨b, hb, hbnot⟩
      have hlen := h.length_eq.trans h'.length_eq.symm
      rw [List.length_cons] at hle
      omega
    exact lt_asymm (h.below a ha b (h'.subset b hb) hbnot) (h'.below b hb a (h.subset a ha) hnot)
  have hperm : l.Perm l' := (List.subperm_of_subset h.nodup hsub).perm_of_length_le
    (h'.length_eq.trans h.length_eq.symm).le
  refine hperm.eq_of_pairwise (fun a b _ _ hab hba => ?_) h.sorted h'.sorted
  exact absurd hab (lt_asymm hba)

/-- The first `n` of a list sorted by key are its `n` least. -/
theorem least_take {l s : List α} (h : l.Pairwise fun a b => key a < key b) (hs : l.Perm s)
    (n : ℕ) : Least key n s (l.take n) where
  sorted := h.sublist (List.take_sublist n l)
  subset a ha := hs.mem_iff.mp (List.mem_of_mem_take ha)
  length_eq := by rw [List.length_take, hs.length_eq]
  below a ha b hb hnot := by
    rw [← List.take_append_drop n l] at h
    have hdrop : b ∈ l.drop n := by
      have hb' : b ∈ l.take n ++ l.drop n := by
        rw [List.take_append_drop]
        exact hs.mem_iff.mpr hb
      exact (List.mem_append.mp hb').resolve_left hnot
    exact (List.pairwise_append.mp h).2.2 a ha b hdrop

/-- Over-fetching : a filter that drops at most `p` elements of the list, on its first
`n + p` or more, keeps the `n` it would keep of the whole. -/
theorem take_filter_take (keep : α → Bool) : ∀ {n p k : ℕ} {l : List α}, n + p ≤ k →
    (l.filter fun a => !keep a).length ≤ p →
      ((l.take k).filter keep).take n = (l.filter keep).take n
  | _, _, _, [], _, _ => by simp
  | 0, _, _, _ :: _, _, _ => by simp
  | n + 1, p, 0, _ :: _, hk, _ => absurd hk (by omega)
  | n + 1, p, k + 1, a :: l, hk, hp => by
    rw [List.take_succ_cons]
    by_cases ha : keep a = true
    · rw [List.filter_cons_of_pos ha, List.filter_cons_of_pos ha, List.take_succ_cons,
        List.take_succ_cons]
      rw [List.filter_cons_of_neg (by simpa using ha)] at hp
      rw [take_filter_take keep (by omega) hp]
    · rw [List.filter_cons_of_neg ha, List.filter_cons_of_neg ha]
      rw [List.filter_cons_of_pos (by simpa using ha), List.length_cons] at hp
      exact take_filter_take keep (p := p - 1) (by omega) (by omega)

/-! ## Chunks -/

/-- The list in chunks of `n`, with fuel for as many chunks as elements. -/
def chunksWithin (n : ℕ) : (fuel : ℕ) → List α → List (List α)
  | 0, _ | _ + 1, [] => []
  | fuel + 1, a :: l => (a :: l).take n :: chunksWithin n fuel ((a :: l).drop n)

def chunks (n : ℕ) (l : List α) : List (List α) := chunksWithin n l.length l

theorem flatten_chunksWithin {n : ℕ} (hn : 0 < n) : ∀ {fuel : ℕ} {l : List α}, l.length ≤ fuel →
    (chunksWithin n fuel l).flatten = l
  | 0, l, h => by
    obtain rfl := List.length_eq_zero_iff.mp (Nat.le_zero.mp h)
    rfl
  | _ + 1, [], _ => rfl
  | fuel + 1, a :: l, h => by
    have hdrop : ((a :: l).drop n).length ≤ fuel := by
      simp only [List.length_drop, List.length_cons] at h ⊢
      omega
    rw [chunksWithin, List.flatten_cons, flatten_chunksWithin hn hdrop, List.take_append_drop]

theorem chunks_map {β : Type*} (n : ℕ) (f : α → β) (l : List α) :
    chunks n (l.map f) = (chunks n l).map (List.map f) := by
  have hwithin : ∀ (fuel : ℕ) (l : List α),
      chunksWithin n fuel (l.map f) = (chunksWithin n fuel l).map (List.map f) := by
    intro fuel
    induction fuel with
    | zero => exact fun _ => rfl
    | succ fuel ih =>
      intro l
      cases l with
      | nil => rfl
      | cons a l =>
        rw [List.map_cons, chunksWithin, chunksWithin, List.map_cons, ← List.map_cons, ← ih,
          List.map_take, List.map_drop]
  rw [chunks, chunks, List.length_map, hwithin]

/-- The chunks of a list, one after another, are the list. -/
theorem flatten_chunks {n : ℕ} (hn : 0 < n) (l : List α) : (chunks n l).flatten = l :=
  flatten_chunksWithin hn le_rfl

end LocalCache
