import Mathlib.Algebra.Order.Group.Defs
import Mathlib.Algebra.Order.Monoid.Unbundled.MinMax
import Mathlib.Tactic.Common
import Mathlib.Tactic.Abel

/-!
# Running maxima and climbing sequences

`climb d` makes a sequence climb by at least `d` at each step : each value is the larger of
its floor and the value before it plus `d`. `windowed` is the shape of a query with a window :
a term for each element and its rank, the maximum of the terms so far, a value for the maximum
and the rank.

The two agree : `v_i = i • d + max_{j ≤ i} (a_j − j • d)` (`windowed_eq_climb`).
-/

namespace LocalCache

section Running

variable {α β : Type*}

/-- Each element combined with those before it. -/
def running (op : α → α → α) : List α → List α
  | [] => []
  | a :: l => l.scanl op a

@[simp] theorem length_running (op : α → α → α) (l : List α) : (running op l).length = l.length := by
  cases l with
  | nil => rfl
  | cons a l => rw [running, List.length_scanl, List.length_cons]

/-- What a choice of its operands combines is an element. -/
theorem mem_of_mem_scanl {op : α → α → α} (hop : ∀ a b, op a b = a ∨ op a b = b) :
    ∀ {l : List α} {a m : α}, m ∈ l.scanl op a → m = a ∨ m ∈ l
  | [], a, m, h => by simpa using h
  | b :: l, a, m, h => by
    rw [List.scanl_cons, List.mem_cons] at h
    rcases h with rfl | h
    · exact .inl rfl
    · rcases mem_of_mem_scanl hop h with rfl | hm
      · refine (hop a b).imp_right fun hb => ?_
        rw [hb]
        exact List.mem_cons_self
      · exact .inr (List.mem_cons_of_mem b hm)

theorem mem_of_mem_running {op : α → α → α} (hop : ∀ a b, op a b = a ∨ op a b = b) {l : List α} {m : α}
    (h : m ∈ running op l) : m ∈ l := by
  cases l with
  | nil => exact h
  | cons a l => exact List.mem_cons.mpr (mem_of_mem_scanl hop h)

/-- A term for each element and its rank, the terms so far combined, and a value for each
combination and its rank. Ranks start at 1. -/
def windowed (term : α → ℕ → β) (op : β → β → β) (value : ℕ → β → β) (l : List α) : List β :=
  ((running op ((l.zipIdx 1).map fun p => term p.1 p.2)).zipIdx 1).map fun p => value p.2 p.1

/-- The values from rank `k` on, where the terms up to it combine to `m` and `l` follows. -/
def windowedFrom (term : α → ℕ → β) (op : β → β → β) (value : ℕ → β → β) (k : ℕ) (m : β)
    (l : List α) : List β :=
  ((((l.zipIdx (k + 1)).map fun p => term p.1 p.2).scanl op m).zipIdx k).map fun p => value p.2 p.1

variable (term : α → ℕ → β) (op : β → β → β) (value : ℕ → β → β)

theorem windowed_cons (a : α) (l : List α) :
    windowed term op value (a :: l) = windowedFrom term op value 1 (term a 1) l := rfl

@[simp] theorem windowedFrom_nil (k : ℕ) (m : β) :
    windowedFrom term op value k m [] = [value k m] := by
  simp [windowedFrom]

@[simp] theorem windowedFrom_cons (k : ℕ) (m : β) (a : α) (l : List α) :
    windowedFrom term op value k m (a :: l) =
      value k m :: windowedFrom term op value (k + 1) (op m (term a (k + 1))) l := by
  simp [windowedFrom, List.scanl_cons]

@[simp] theorem length_windowed (l : List α) : (windowed term op value l).length = l.length := by
  simp [windowed]

theorem windowed_map {γ : Type*} (f : γ → α) (l : List γ) :
    windowed term op value (l.map f) = windowed (fun c rank => term (f c) rank) op value l := by
  rw [windowed, windowed, List.zipIdx_map, List.map_map]
  rfl

end Running

/-! ## The climbing sequence of a list of floors -/

section Climb

variable {α : Type*} [AddCommGroup α] [LinearOrder α] (d : α)

/-- `v_1 = a_1`, and `v_i = max(a_i, v_{i-1} + d)`. -/
def climb (floors : List α) : List α := running (fun last a => max a (last + d)) floors

/-- `climb` from the last value on. -/
def climbFrom (last : α) (floors : List α) : List α :=
  floors.scanl (fun last a => max a (last + d)) last

theorem climb_cons (a : α) (floors : List α) : climb d (a :: floors) = climbFrom d a floors := rfl

@[simp] theorem climbFrom_nil (last : α) : climbFrom d last [] = [last] := by
  simp [climbFrom]

@[simp] theorem climbFrom_cons (last a : α) (floors : List α) :
    climbFrom d last (a :: floors) = last :: climbFrom d (max a (last + d)) floors := by
  simp [climbFrom, List.scanl_cons]

/-- A climb starts with its last value so far. -/
theorem climbFrom_eq_cons (last : α) (floors : List α) :
    ∃ values, climbFrom d last floors = last :: values := by
  cases floors with
  | nil => exact ⟨[], climbFrom_nil d last⟩
  | cons a floors => exact ⟨_, climbFrom_cons d last a floors⟩

@[simp] theorem length_climb (floors : List α) : (climb d floors).length = floors.length :=
  length_running _ _

theorem le_of_mem_climbFrom [IsOrderedAddMonoid α] (hd : 0 ≤ d) : ∀ {floors : List α} {last v : α},
    v ∈ climbFrom d last floors → last ≤ v
  | [], last, v, hv => by
    rw [climbFrom_nil, List.mem_singleton] at hv
    exact hv.ge
  | a :: floors, last, v, hv => by
    rw [climbFrom_cons] at hv
    rcases List.mem_cons.mp hv with rfl | hv
    · exact le_rfl
    · have hstep : last ≤ max a (last + d) := (le_add_of_nonneg_right hd).trans (le_max_right _ _)
      exact hstep.trans (le_of_mem_climbFrom hd hv)

theorem pairwise_climbFrom [IsOrderedAddMonoid α] (hd : 0 < d) : ∀ (floors : List α) (last : α),
    (climbFrom d last floors).Pairwise (· < ·)
  | [], last => by simp
  | a :: floors, last => by
    rw [climbFrom_cons, List.pairwise_cons]
    refine ⟨fun v hv => ?_, pairwise_climbFrom hd floors _⟩
    have hstep : last < max a (last + d) := (lt_add_of_pos_right last hd).trans_le (le_max_right _ _)
    exact hstep.trans_le (le_of_mem_climbFrom d hd.le hv)

/-- A climbing sequence increases strictly. -/
theorem pairwise_climb [IsOrderedAddMonoid α] (hd : 0 < d) (floors : List α) :
    (climb d floors).Pairwise (· < ·) := by
  cases floors with
  | nil => exact List.Pairwise.nil
  | cons a floors => exact pairwise_climbFrom d hd floors a

/-- The step of a climb, in the terms of a window : the maximum of the terms so far. -/
theorem nsmul_add_max [IsOrderedAddMonoid α] (k : ℕ) (m a : α) :
    (k + 1) • d + max m (a - (k + 1) • d) = max a (k • d + m + d) := by
  rw [add_max, add_sub_cancel, max_comm, succ_nsmul]
  congr 1
  abel

theorem windowedFrom_eq_climbFrom [IsOrderedAddMonoid α] : ∀ (floors : List α) (k : ℕ) (m : α),
    windowedFrom (fun a i => a - i • d) max (fun i m => i • d + m) k m floors =
      climbFrom d (k • d + m) floors
  | [], k, m => by simp
  | a :: floors, k, m => by
    rw [windowedFrom_cons, climbFrom_cons, windowedFrom_eq_climbFrom floors, nsmul_add_max]

/-- The closed form of a climb. -/
theorem windowed_eq_climb [IsOrderedAddMonoid α] (floors : List α) :
    windowed (fun a i => a - i • d) max (fun i m => i • d + m) floors = climb d floors := by
  cases floors with
  | nil => rfl
  | cons a floors =>
    rw [windowed_cons, climb_cons, windowedFrom_eq_climbFrom, add_sub_cancel]

end Climb

end LocalCache
