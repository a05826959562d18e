import Mathlib.Computability.Language

/-!
# Words that a wildcard may absorb

Languages `⊤ * l`, of the words that end in a word of `l`, and languages whose words have one
length. A search for the leftmost word of such a language after a wildcard loses nothing :
what a later one would allow, the next wildcard absorbs (`mem_top_mul_leftmost`).
-/

namespace Language

variable {α : Type} {l m x : Language α} {u v w : List α} {n : ℕ}

/-- The words of a language have this length. -/
def HasLength (l : Language α) (n : ℕ) : Prop := ∀ w ∈ l, w.length = n

/-- The words of one letter. -/
def letters : Language α := {w | w.length = 1}

theorem mem_singleton : w ∈ ({u} : Language α) ↔ w = u := Iff.rfl

theorem mem_top (w : List α) : w ∈ (⊤ : Language α) := trivial

/-! ## Languages of one length -/

theorem hasLength_one : HasLength (1 : Language α) 0 := by
  intro w hw
  rw [(mem_one w).mp hw]
  rfl

theorem hasLength_letters : HasLength (letters : Language α) 1 := fun _ hw => hw

theorem hasLength_singleton (a : α) : HasLength ({[a]} : Language α) 1 := by
  intro w hw
  rw [mem_singleton.mp hw]
  rfl

theorem HasLength.mul {k : ℕ} (hl : HasLength l n) (hm : HasLength m k) : HasLength (l * m) (n + k) := by
  intro w hw
  obtain ⟨a, ha, b, hb, rfl⟩ := mem_mul.mp hw
  rw [List.length_append, hl a ha, hm b hb]

/-- What follows the only prefix that can be a word of `x`. -/
theorem append_mem_mul_iff (hx : HasLength x n) (hu : u.length = n) :
    u ++ v ∈ x * l ↔ u ∈ x ∧ v ∈ l := by
  constructor
  · intro h
    obtain ⟨a, ha, b, hb, hab⟩ := mem_mul.mp h
    obtain ⟨rfl, rfl⟩ := List.append_inj hab ((hx a ha).trans hu.symm)
    exact ⟨ha, hb⟩
  · rintro ⟨hu, hv⟩
    exact append_mem_mul hu hv

theorem le_length_of_mem_mul (hx : HasLength x n) (h : w ∈ x * l) : n ≤ w.length := by
  obtain ⟨a, ha, b, -, rfl⟩ := mem_mul.mp h
  rw [List.length_append, hx a ha]
  exact Nat.le_add_right _ _

/-! ## Wildcards -/

theorem mem_top_mul : w ∈ ⊤ * l ↔ ∃ u v, w = u ++ v ∧ v ∈ l := by
  rw [mem_mul]
  constructor
  · rintro ⟨u, -, v, hv, rfl⟩
    exact ⟨u, v, rfl, hv⟩
  · rintro ⟨u, v, rfl, hv⟩
    exact ⟨u, mem_top u, v, hv, rfl⟩

theorem mem_top_mul_of_mem (h : w ∈ l) : w ∈ ⊤ * l := mem_top_mul.mpr ⟨[], w, rfl, h⟩

theorem append_mem_top_mul (u : List α) (h : v ∈ ⊤ * l) : u ++ v ∈ ⊤ * l := by
  obtain ⟨a, b, rfl, hb⟩ := mem_top_mul.mp h
  exact mem_top_mul.mpr ⟨u ++ a, b, (List.append_assoc u a b).symm, hb⟩

theorem nil_mem_top_mul : [] ∈ ⊤ * l ↔ [] ∈ l := by
  rw [mem_top_mul]
  constructor
  · rintro ⟨u, v, h, hv⟩
    rwa [(List.append_eq_nil_iff.mp h.symm).2] at hv
  · intro h
    exact ⟨[], [], rfl, h⟩

theorem top_mul_top : (⊤ * ⊤ : Language α) = ⊤ := by
  ext w
  exact iff_of_true (mem_top_mul_of_mem (mem_top w)) (mem_top w)

/-- A wildcard absorbs the first letter, or nothing. -/
theorem cons_mem_top_mul {a : α} : a :: w ∈ ⊤ * l ↔ a :: w ∈ l ∨ w ∈ ⊤ * l := by
  constructor
  · intro h
    obtain ⟨u, v, huv, hv⟩ := mem_top_mul.mp h
    cases u with
    | nil => exact .inl (huv ▸ hv)
    | cons b u =>
      obtain ⟨-, rfl⟩ := List.cons.inj huv
      exact .inr (mem_top_mul.mpr ⟨u, v, rfl, hv⟩)
  · rintro (h | h)
    · exact mem_top_mul_of_mem h
    · exact append_mem_top_mul [a] h

/-- After the leftmost word of `x`, the next wildcard has all the words that a later one
leaves. -/
theorem mem_top_mul_leftmost (hx : HasLength x n) (hu : u ∈ x) :
    u ++ v ∈ ⊤ * (x * (⊤ * l)) ↔ v ∈ ⊤ * l := by
  constructor
  · intro h
    obtain ⟨a, b, hab, hb⟩ := mem_top_mul.mp h
    obtain ⟨c, hc, d, hd, rfl⟩ := mem_mul.mp hb
    -- the later word ends no earlier than `u`
    have hlength : u.length ≤ (a ++ c).length := by
      rw [List.length_append, hx u hu, hx c hc]
      exact Nat.le_add_left _ _
    rw [← List.append_assoc] at hab
    rcases List.append_eq_append_iff.mp hab with ⟨e, -, rfl⟩ | ⟨e, rfl, rfl⟩
    · exact append_mem_top_mul e hd
    · rw [List.length_append] at hlength
      obtain rfl : e = [] := List.eq_nil_of_length_eq_zero (by omega)
      exact hd
  · intro h
    exact mem_top_mul_of_mem (append_mem_mul hu h)

end Language
