import Mathlib.Logic.Function.Basic
import Mathlib.Tactic.Common

/-!
# Locks that a panic poisons

A `Lock` has at most one owner, and is poisoned once a thread panicked while it owned it.
`tryLock` gives a lock that is free and not poisoned. `lock` waits for a lock that is held, and
reports one that is poisoned. `unlock` is the end of a hold, by a panic or not.

Threads take and leave locks. `Owners holds locks` says that the locks' owners are the threads
that hold them, and that no poisoned lock is held. Every hold and every release keep it
(`Owners.acquire`, `Owners.release`), so two threads never hold the same lock
(`Owners.exclusive`), and a poisoned lock is held by none from then on.
-/

namespace LocalCache

/-- A lock : the thread that holds it, and whether a thread panicked while it did. -/
structure Lock where
  owner : Option ℕ
  poisoned : Bool
  deriving DecidableEq, Repr

/-- What waiting for a lock comes to. -/
inductive Acquired
  | held
  | poisoned
  | locked (l : Lock)
  deriving DecidableEq, Repr

namespace Lock

/-- A new lock. -/
def free : Lock := ⟨none, false⟩

/-- The lock can be taken. -/
def Available (l : Lock) : Prop := l.owner = none ∧ l.poisoned = false

instance (l : Lock) : Decidable l.Available := inferInstanceAs (Decidable (_ ∧ _))

/-- Take the lock if that is possible at once. -/
def tryLock (l : Lock) (t : ℕ) : Option Lock := if l.Available then some ⟨some t, false⟩ else none

/-- Take the lock when it is free. The guard of a poisoned lock is dropped at once. -/
def lock (l : Lock) (t : ℕ) : Acquired :=
  match l.owner with
  | some _ => .held
  | none => if l.poisoned then .poisoned else .locked ⟨some t, false⟩

/-- The owner leaves the lock, perhaps in a panic. -/
def unlock (l : Lock) (panics : Bool) : Lock := ⟨none, l.poisoned || panics⟩

variable {l l' : Lock} {t : ℕ}

theorem tryLock_eq_some : l.tryLock t = some l' ↔ l.Available ∧ l' = ⟨some t, false⟩ := by
  unfold tryLock
  split_ifs with h
  · simp [h, eq_comm]
  · simp [h]

theorem tryLock_eq_none : l.tryLock t = none ↔ ¬l.Available := by simp [tryLock]

theorem lock_eq_locked : l.lock t = .locked l' ↔ l.Available ∧ l' = ⟨some t, false⟩ := by
  unfold lock Available
  cases l.owner with
  | some _ => simp
  | none =>
    cases l.poisoned with
    | true => simp
    | false => simp [eq_comm]

theorem lock_eq_poisoned : l.lock t = .poisoned ↔ l.owner = none ∧ l.poisoned = true := by
  unfold lock
  cases l.owner with
  | some _ => simp
  | none => cases l.poisoned <;> simp

theorem lock_eq_held : l.lock t = .held ↔ l.owner ≠ none := by
  unfold lock
  cases l.owner with
  | some _ => simp
  | none => cases l.poisoned <;> simp

end Lock

/-- The owners of the locks are the threads that hold them, and no poisoned lock is held. -/
structure Owners (holds : ℕ → Option ℕ) (locks : ℕ → Lock) : Prop where
  owner : ∀ k t, (locks k).owner = some t ↔ holds t = some k
  poisoned : ∀ k, (locks k).poisoned = true → (locks k).owner = none

namespace Owners

variable {holds : ℕ → Option ℕ} {locks : ℕ → Lock} {k t t' : ℕ}

theorem free : Owners (fun _ => none) fun _ => .free :=
  ⟨fun _ _ => by simp [Lock.free], fun _ _ => rfl⟩

/-- Two threads never hold the same lock. -/
theorem exclusive (h : Owners holds locks) (ht : holds t = some k) (ht' : holds t' = some k) :
    t = t' :=
  Option.some.inj (((h.owner k t).mpr ht).symm.trans ((h.owner k t').mpr ht'))

/-- A thread that holds nothing takes a lock. -/
theorem acquire (h : Owners holds locks) (ht : holds t = none) (hk : (locks k).Available) :
    Owners (Function.update holds t (some k)) (Function.update locks k ⟨some t, false⟩) := by
  refine ⟨fun i u => ?_, fun i hi => ?_⟩
  · by_cases hik : i = k
    · subst hik
      rw [Function.update_self]
      by_cases hut : u = t
      · subst hut
        simp
      · have hnot : holds u ≠ some i := fun hu => by
          have := (h.owner i u).mpr hu
          rw [hk.1] at this
          exact absurd this (by simp)
        rw [Function.update_of_ne hut]
        simp [hnot, Ne.symm hut]
    · rw [Function.update_of_ne hik, h.owner]
      by_cases hut : u = t
      · subst hut
        simp [ht, Ne.symm hik]
      · rw [Function.update_of_ne hut]
  · by_cases hik : i = k
    · subst hik
      simp at hi
    · rw [Function.update_of_ne hik] at hi ⊢
      exact h.poisoned i hi

/-- A thread leaves its lock. -/
theorem release (h : Owners holds locks) (ht : holds t = some k) (panics : Bool) :
    Owners (Function.update holds t none) (Function.update locks k ((locks k).unlock panics)) := by
  refine ⟨fun i u => ?_, fun i hi => ?_⟩
  · by_cases hik : i = k
    · subst hik
      rw [Function.update_self, Lock.unlock]
      by_cases hut : u = t
      · subst hut
        simp
      · have hnot : holds u ≠ some i := fun hu => hut (h.exclusive hu ht)
        rw [Function.update_of_ne hut]
        simp [hnot]
    · rw [Function.update_of_ne hik, h.owner]
      by_cases hut : u = t
      · subst hut
        simp [ht, Ne.symm hik]
      · rw [Function.update_of_ne hut]
  · by_cases hik : i = k
    · subst hik
      rw [Function.update_self]
      rfl
    · rw [Function.update_of_ne hik] at hi ⊢
      exact h.poisoned i hi

end Owners

end LocalCache
