import Mathlib.Data.List.Nodup
import Mathlib.Tactic.Common

/-!
# Recency lists

A list in the order of use, oldest first, with one element for each key. `refresh` uses an
element : it becomes the newest, in place of the one under its key. `newest m` keeps the `m`
newest.

Keeping the `m` newest after every use leaves what keeping them once at the end leaves
(`foldl_newest_refresh`). An element dropped on the way had `m` newer ones, and it stays
that far down unless it is used again, which makes it the newest either way.
-/

namespace LocalCache

universe u v

variable {α : Type u} {κ : Type v} [DecidableEq κ] (key : α → κ)

/-- Use `a` : it becomes the newest of its key. -/
def refresh (l : List α) (a : α) : List α := l.filter (fun b => key b ≠ key a) ++ [a]

/-- The `m` newest. -/
def newest (m : ℕ) (l : List α) : List α := l.drop (l.length - m)

theorem newest_of_length_le {m : ℕ} {l : List α} (h : l.length ≤ m) : newest m l = l := by
  rw [newest, Nat.sub_eq_zero_of_le h, List.drop_zero]

/-- The newest of a list are the newest of its end, if that is long enough. -/
theorem newest_append {m : ℕ} {l l' : List α} (h : m ≤ l'.length) :
    newest m (l ++ l') = newest m l' := by
  unfold newest
  rw [List.length_append, List.drop_append, List.drop_eq_nil_of_le (by omega), List.nil_append]
  congr 1
  omega

@[simp] theorem length_newest (m : ℕ) (l : List α) : (newest m l).length = min m l.length := by
  rw [newest, List.length_drop]
  omega

theorem newest_sublist (m : ℕ) (l : List α) : (newest m l).Sublist l := List.drop_sublist _ _

variable {key}

/-- A key occurs at most once, so a use drops at most one element. -/
theorem length_le_length_refresh {l : List α} (h : (l.map key).Nodup) (a : α) :
    l.length ≤ (refresh key l a).length := by
  rw [refresh, List.length_append, List.length_singleton]
  induction l with
  | nil => simp
  | cons b l ih =>
    rw [List.map_cons, List.nodup_cons] at h
    by_cases hb : key b = key a
    · have hrest : l.filter (fun b => key b ≠ key a) = l := by
        refine List.filter_eq_self.mpr fun c hc => ?_
        have hne : key c ≠ key b := fun heq => h.1 (heq ▸ List.mem_map_of_mem hc)
        simpa [← hb] using hne
      rw [List.filter_cons_of_neg (by simpa using hb), hrest]
      exact Nat.le_refl _
    · rw [List.filter_cons_of_pos (by simpa using hb), List.length_cons, List.length_cons]
      have := ih h.2
      omega

theorem nodup_refresh {l : List α} (h : (l.map key).Nodup) (a : α) :
    ((refresh key l a).map key).Nodup := by
  rw [refresh, List.map_append, List.map_singleton, ← List.concat_eq_append]
  refine (h.sublist (List.filter_sublist.map _)).concat fun hmem => ?_
  obtain ⟨b, hb, hkey⟩ := List.mem_map.mp hmem
  simp [hkey] at hb

/-- Of the newest after a use, those before it were among the newest before it. -/
theorem newest_refresh_newest {m : ℕ} {l : List α} (h : (l.map key).Nodup) (a : α) :
    newest m (refresh key (newest m l) a) = newest m (refresh key l a) := by
  by_cases hlen : l.length ≤ m
  · rw [newest_of_length_le hlen]
  · have hsplit : refresh key l a =
        (l.take (l.length - m)).filter (fun b => key b ≠ key a) ++ refresh key (newest m l) a := by
      rw [refresh, refresh, newest, ← List.append_assoc, ← List.filter_append,
        List.take_append_drop]
    rw [hsplit, newest_append]
    have hle := length_le_length_refresh (h.sublist ((newest_sublist m l).map key)) a
    rw [length_newest] at hle
    omega

/-- Keeping the newest after every use, or once at the end. -/
theorem foldl_newest_refresh (m : ℕ) : ∀ {l : List α} (as : List α), (l.map key).Nodup →
    as.foldl (fun l a => newest m (refresh key l a)) (newest m l) =
      newest m (as.foldl (refresh key) l)
  | _, [], _ => rfl
  | l, a :: as, h => by
    rw [List.foldl_cons, List.foldl_cons, newest_refresh_newest h a,
      foldl_newest_refresh m as (nodup_refresh h a)]

/-- After uses of `as` the elements of other keys come first, in their order, and then those
of these keys. -/
theorem foldl_refresh_split : ∀ (l as : List α), ∃ used, as.foldl (refresh key) l =
    l.filter (fun b => key b ∉ as.map key) ++ used ∧ ∀ b ∈ used, key b ∈ as.map key
  | l, [] => ⟨[], by simp, by simp⟩
  | l, a :: as => by
    obtain ⟨used, heq, hused⟩ := foldl_refresh_split (refresh key l a) as
    refine ⟨[a].filter (fun b => key b ∉ as.map key) ++ used, ?_, fun b hb => ?_⟩
    · rw [List.foldl_cons, heq, refresh, List.filter_append, List.filter_filter,
        List.append_assoc]
      congr 2
      funext b
      simp only [List.map_cons, List.mem_cons, not_or, ne_eq, Bool.decide_and, Bool.and_comm]
    · rw [List.map_cons, List.mem_cons]
      rcases List.mem_append.mp hb with hb | hb
      · exact Or.inl (congrArg key (List.mem_singleton.mp (List.mem_of_mem_filter hb)))
      · exact Or.inr (hused b hb)

end LocalCache
