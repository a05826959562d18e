import Mathlib.Data.List.Infix
import Mathlib.Data.List.Lex
import Mathlib.Order.Cover

/-!
# Prefixes and occurrences in lists

In the lexicographic order, the lists that start with `l ++ [a]` are those between it and
`l ++ [a']`, where `a'` is next to `a` (`isPrefix_iff_between`). `position` is where a list
first occurs in another, counted from one, and zero where it does not occur
(`position_eq_zero_iff`).
-/

namespace LocalCache

variable {α : Type*}

/-- The lists with a prefix are a range of the lexicographic order : up to the prefix with the
next letter at its end. -/
theorem isPrefix_iff_between [LinearOrder α] {a a' : α} (h : a ⋖ a') :
    ∀ l b : List α, l ++ [a] <+: b ↔ l ++ [a] ≤ b ∧ b < l ++ [a']
  | [], [] => by simp
  | c :: l, [] => by simp
  | [], x :: b => by
    rw [List.nil_append, List.nil_append, List.cons_prefix_cons, ← not_lt,
      List.cons_lt_cons_iff, List.cons_lt_cons_iff]
    constructor
    · rintro ⟨rfl, -⟩
      exact ⟨by simp, .inl h.1⟩
    · rintro ⟨hle, hlt | ⟨-, hlt⟩⟩
      · have hax : ¬ a < x := fun hax => h.2 hax hlt
        have hxa : ¬ x < a := fun hxa => hle (.inl hxa)
        exact ⟨le_antisymm (not_lt.mp hxa) (not_lt.mp hax), List.nil_prefix⟩
      · exact absurd hlt (List.not_lt_nil b)
  | c :: l, x :: b => by
    have ih := isPrefix_iff_between h l b
    rw [List.cons_append, List.cons_append, List.cons_prefix_cons, ih, ← not_lt, ← not_lt,
      List.cons_lt_cons_iff, List.cons_lt_cons_iff]
    constructor
    · rintro ⟨rfl, hle, hlt⟩
      refine ⟨?_, .inr ⟨rfl, hlt⟩⟩
      rintro (hcc | ⟨-, hb⟩)
      · exact lt_irrefl c hcc
      · exact hle hb
    · rintro ⟨hle, hxc | ⟨rfl, hlt⟩⟩
      · exact absurd (.inl hxc) hle
      · exact ⟨rfl, fun hb => hle (.inr ⟨rfl, hb⟩), hlt⟩

/-- The place of the first occurrence, counted from one, and zero if there is none. -/
def position [DecidableEq α] (needle : List α) : List α → ℕ
  | [] => if needle = [] then 1 else 0
  | c :: rest =>
    if needle <+: c :: rest then 1
    else match position needle rest with
      | 0 => 0
      | n + 1 => n + 2

theorem position_eq_zero_iff [DecidableEq α] (needle : List α) :
    ∀ l, position needle l = 0 ↔ ¬ needle <:+: l
  | [] => by simp [position]
  | c :: rest => by
    have ih := position_eq_zero_iff needle rest
    rw [List.infix_cons_iff, not_or, ← ih, position]
    split_ifs with hstart
    · simp [hstart]
    · cases position needle rest <;> simp [hstart]

end LocalCache
