import LocalCache.StateExcept

/-!
# State with failure, and a record of what was done

`Traced σ ε ω α` is a computation over a state `σ` that lists what it does, as events of
`ω`. Where `StateExcept` forgets a failure's state, the list stays : a failed computation
tells what it did before it failed. `run` forgets the list, and takes each composition to
the same composition.

`Accounted P x y` is the rule for such computations : from every state with `pre`, `x` and
`y` do the same, and `P` holds of the state before, the list, and the state after, if there
is one. It composes wherever `P` does.
-/

namespace LocalCache

universe u

/-- A computation over a state that may fail, with the list of what it did. -/
def Traced (σ ε ω α : Type u) := σ → Except ε (α × σ) × List ω

namespace Traced

variable {σ ε ω α β : Type u}

instance : Monad (Traced σ ε ω) where
  pure a := fun s => (.ok (a, s), [])
  bind x f := fun s => match x s with
    | (.ok (a, s), done) => ((f a s).1, done ++ (f a s).2)
    | (.error e, done) => (.error e, done)

def fail (e : ε) : Traced σ ε ω α := fun _ => (.error e, [])

/-- A computation that lists nothing. -/
def lift (x : StateExcept σ ε α) : Traced σ ε ω α := fun s => (x s, [])

/-- List one event. -/
def note (w : ω) : Traced σ ε ω PUnit := fun s => (.ok (⟨⟩, s), [w])

/-- The computation without its list. -/
def run (x : Traced σ ε ω α) : StateExcept σ ε α := fun s => (x s).1

/-- The state a computation ended in, if it did not fail. -/
def final : Except ε (α × σ) → Option σ
  | .ok (_, s) => some s
  | .error _ => none

theorem bind_of_ok {x : Traced σ ε ω α} {f : α → Traced σ ε ω β} {s s' : σ} {a : α}
    {done : List ω} (h : x s = (.ok (a, s'), done)) :
    (x >>= f) s = ((f a s').1, done ++ (f a s').2) := by
  show (match x s with
    | (.ok (a, s), done) => ((f a s).1, done ++ (f a s).2)
    | (.error e, done) => (.error e, done)) = _
  rw [h]

theorem bind_of_error {x : Traced σ ε ω α} {f : α → Traced σ ε ω β} {s : σ} {e : ε}
    {done : List ω} (h : x s = (.error e, done)) : (x >>= f) s = (.error e, done) := by
  show (match x s with
    | (.ok (a, s), done) => ((f a s).1, done ++ (f a s).2)
    | (.error e, done) => (.error e, done)) = _
  rw [h]

theorem bind_assoc {γ : Type u} (x : Traced σ ε ω α) (f : α → Traced σ ε ω β)
    (g : β → Traced σ ε ω γ) : x >>= f >>= g = x >>= fun a => f a >>= g := by
  funext s
  rcases hx : x s with ⟨_ | ⟨a, s₁⟩, done⟩
  · rw [bind_of_error (bind_of_error hx), bind_of_error hx]
  · rw [bind_of_ok hx]
    rcases hf : f a s₁ with ⟨_ | ⟨b, s₂⟩, done'⟩
    · rw [bind_of_error ((bind_of_ok hx).trans (by rw [hf])), bind_of_error hf]
    · rw [bind_of_ok ((bind_of_ok hx).trans (by rw [hf])), bind_of_ok hf, List.append_assoc]

/-! ## Forgetting the list -/

@[simp] theorem run_pure (a : α) : run (pure a : Traced σ ε ω α) = pure a := rfl

@[simp] theorem run_fail (e : ε) : run (fail e : Traced σ ε ω α) = StateExcept.fail e := rfl

@[simp] theorem run_lift (x : StateExcept σ ε α) : run (lift x : Traced σ ε ω α) = x := rfl

@[simp] theorem run_bind (x : Traced σ ε ω α) (f : α → Traced σ ε ω β) :
    run (x >>= f) = run x >>= fun a => run (f a) := by
  funext s
  rcases hx : x s with ⟨_ | ⟨a, s'⟩, done⟩
  · rw [StateExcept.bind_of_error (congrArg Prod.fst hx)]
    exact congrArg Prod.fst (bind_of_error hx)
  · rw [StateExcept.bind_of_ok (congrArg Prod.fst hx), run, bind_of_ok hx]
    rfl

/-- An event leaves the rest of the computation as it is. -/
@[simp] theorem run_note (w : ω) (f : PUnit → StateExcept σ ε β) :
    run (note w : Traced σ ε ω PUnit) >>= f = f ⟨⟩ := rfl

/-! ## What a computation does -/

/-- From every state with `pre` the two computations do the same, and `P` holds of the state
before, of the list, and of the state after if there is one. -/
def Accounted (pre : σ → Prop) (P : σ → List ω → Option σ → Prop) (x y : Traced σ ε ω α) :
    Prop :=
  ∀ s, pre s → x s = y s ∧ P s (x s).2 (final (x s).1)

namespace Accounted

variable {pre : σ → Prop} {P Q R : σ → List ω → Option σ → Prop} {x y : Traced σ ε ω α}

theorem pure {a : α} (h : ∀ s, pre s → P s [] (some s)) :
    Accounted pre P (Pure.pure a : Traced σ ε ω α) (Pure.pure a) :=
  fun s hs => ⟨rfl, h s hs⟩

theorem fail {e : ε} (h : ∀ s, pre s → P s [] none) :
    Accounted pre P (Traced.fail e : Traced σ ε ω α) (Traced.fail e) :=
  fun s hs => ⟨rfl, h s hs⟩

theorem note {w : ω} (h : ∀ s, pre s → P s [w] (some s)) :
    Accounted pre P (Traced.note w : Traced σ ε ω PUnit) (Traced.note w) :=
  fun s hs => ⟨rfl, h s hs⟩

/-- What two computations in turn do : the second starts where the first ended. -/
theorem bind {mid : σ → Prop} {f g : α → Traced σ ε ω β} (hx : Accounted pre P x y)
    (hf : ∀ a, Accounted mid Q (f a) (g a))
    (hmid : ∀ s done s', pre s → P s done (some s') → mid s')
    (hfail : ∀ s done, P s done none → R s done none)
    (happend : ∀ s done s' done' s'', P s done (some s') → Q s' done' s'' →
      R s (done ++ done') s'') :
    Accounted pre R (x >>= f) (y >>= g) := by
  intro s hs
  obtain ⟨hxy, hP⟩ := hx s hs
  rcases hrun : x s with ⟨_ | ⟨a, s'⟩, done⟩ <;> rw [hrun] at hP
  · rw [bind_of_error hrun, bind_of_error (hxy ▸ hrun)]
    exact ⟨rfl, hfail _ _ hP⟩
  · obtain ⟨hfg, hQ⟩ := hf a s' (hmid _ _ _ hs hP)
    rw [bind_of_ok hrun, bind_of_ok (hxy ▸ hrun), ← hfg]
    exact ⟨rfl, happend _ _ _ _ _ hP hQ⟩

end Accounted

end Traced

end LocalCache
