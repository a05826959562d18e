import Mathlib.Tactic.Common

/-!
# State with failure, and its rules

`StateExcept σ ε α` is a computation over a state `σ` that returns a value and a new state
or fails with `ε` and no state. A failure carries no state because what it did is undone
or unobservable.

The inversion lemmas say what a successful composition did. `forEach` runs a computation
for each element of a list, and `forEach_ok` is its rule : an invariant of the elements
done and the values they gave holds at the end. `Moves` is what every success does to the
state, and `Total` is total correctness : the computation succeeds, and what holds after it.
`Stable` is monotonicity : a success from one state is a success from every state related to it.
-/

namespace LocalCache

universe u

/-- A computation over a state that may fail. -/
def StateExcept (σ ε α : Type u) := σ → Except ε (α × σ)

namespace StateExcept

variable {σ ε α β : Type u}

instance : Monad (StateExcept σ ε) where
  pure a := fun s => .ok (a, s)
  bind x f := fun s => match x s with
    | .ok (a, s) => f a s
    | .error e => .error e

def fail (e : ε) : StateExcept σ ε α := fun _ => .error e

def ofExcept (x : Except ε α) : StateExcept σ ε α := fun s => x.map fun a => (a, s)

/-! ## What a composition did -/

theorem bind_of_ok {x : StateExcept σ ε α} {f : α → StateExcept σ ε β} {s s' : σ} {a : α}
    (h : x s = .ok (a, s')) : (x >>= f) s = f a s' := by
  show (match x s with
    | .ok (a, s) => f a s
    | .error e => .error e) = _
  rw [h]

theorem bind_of_error {x : StateExcept σ ε α} {f : α → StateExcept σ ε β} {s : σ} {e : ε}
    (h : x s = .error e) : (x >>= f) s = .error e := by
  show (match x s with
    | .ok (a, s) => f a s
    | .error e => .error e) = _
  rw [h]

/-- What a successful sequence of two computations did. -/
theorem bind_eq_ok {x : StateExcept σ ε α} {f : α → StateExcept σ ε β} {s s'' : σ} {b : β}
    (h : (x >>= f) s = .ok (b, s'')) : ∃ a s', x s = .ok (a, s') ∧ f a s' = .ok (b, s'') := by
  cases hx : x s with
  | ok p =>
    obtain ⟨a, s'⟩ := p
    exact ⟨a, s', rfl, (bind_of_ok hx).symm.trans h⟩
  | error e =>
    rw [bind_of_error hx] at h
    exact absurd h (by simp)

theorem pure_eq_ok {a b : α} {s s' : σ} (h : (pure a : StateExcept σ ε α) s = .ok (b, s')) :
    a = b ∧ s = s' := by
  simpa using Except.ok.inj (show Except.ok (a, s) = Except.ok (b, s') from h)

/-- What a successful computation followed by a function of its value did. -/
theorem map_eq_ok {x : StateExcept σ ε α} {g : α → β} {s s' : σ} {b : β}
    (h : (x >>= fun a => pure (g a)) s = .ok (b, s')) : ∃ a, x s = .ok (a, s') ∧ g a = b := by
  obtain ⟨a, s₁, ha, h⟩ := bind_eq_ok h
  obtain ⟨rfl, rfl⟩ := pure_eq_ok h
  exact ⟨a, ha, rfl⟩

/-- What a successful sequence did after a first part without a value. -/
theorem then_eq_ok {x : StateExcept σ ε α} {y : StateExcept σ ε β} {s s'' : σ} {b : β}
    (h : (x >>= fun _ => y) s = .ok (b, s'')) : ∃ s', y s' = .ok (b, s'') := by
  obtain ⟨-, s', -, hy⟩ := bind_eq_ok h
  exact ⟨s', hy⟩

theorem not_fail_eq_ok {e : ε} {s : σ} {p : α × σ} : (fail e : StateExcept σ ε α) s ≠ .ok p := by
  simp [fail]

theorem ofExcept_eq_ok {x : Except ε α} {s s' : σ} {a : α}
    (h : (ofExcept x : StateExcept σ ε α) s = .ok (a, s')) : x = .ok a ∧ s' = s := by
  cases x with
  | error e => exact absurd h (by simp [ofExcept, Except.map])
  | ok b =>
    obtain ⟨rfl, rfl⟩ := Prod.mk.inj (Except.ok.inj h)
    exact ⟨rfl, rfl⟩

/-! ## Loops over a list -/

/-- Run `f` on each element in turn, and collect the values. -/
def forEach (f : β → StateExcept σ ε α) : List β → StateExcept σ ε (List α)
  | [] => pure []
  | b :: bs => do
    let a ← f b
    let as ← forEach f bs
    pure (a :: as)

/-- The rule of `forEach` : `I` is an invariant of the elements done, their values and the
state. -/
theorem forEach_ok {f : β → StateExcept σ ε α} (I : List β → List α → σ → Prop)
    (step : ∀ done as b a s s', I done as s → f b s = .ok (a, s') → I (done ++ [b]) (as ++ [a]) s') :
    ∀ (bs : List β) (done : List β) (pre as : List α) (s s' : σ), I done pre s →
      forEach f bs s = .ok (as, s') → I (done ++ bs) (pre ++ as) s'
  | [], done, pre, _, _, _, hI, h => by
    obtain ⟨rfl, rfl⟩ := pure_eq_ok h
    simpa using hI
  | b :: bs, done, pre, _, _, _, hI, h => by
    obtain ⟨a, s₁, ha, h⟩ := bind_eq_ok h
    obtain ⟨as, s₂, has, h⟩ := bind_eq_ok h
    obtain ⟨rfl, rfl⟩ := pure_eq_ok h
    have := forEach_ok I step bs _ _ _ _ _ (step _ _ _ _ _ _ hI ha) has
    simpa using this

theorem forEach_singleton_map {γ : Type u} (f : β → StateExcept σ ε α) (b : β) (g : List α → γ) :
    (forEach f [b] >>= fun as => pure (g as)) = (f b >>= fun a => pure (g [a])) := by
  funext s
  cases hb : f b s with
  | error e =>
    have hloop : forEach f [b] s = .error e := bind_of_error hb
    rw [bind_of_error hloop, bind_of_error hb]
  | ok p =>
    obtain ⟨a, s'⟩ := p
    have hloop : forEach f [b] s = .ok ([a], s') := bind_of_ok hb
    rw [bind_of_ok hloop, bind_of_ok hb]

/-- A loop that fails at an element fails. -/
theorem forEach_of_error {f : β → StateExcept σ ε α} {b : β} {bs : List β} {e : ε} :
    ∀ {done : List β} {as : List α} {s t : σ}, forEach f done s = .ok (as, t) → f b t = .error e →
      forEach f (done ++ b :: bs) s = .error e
  | [], _, _, _, hdone, hb => by
    obtain ⟨-, rfl⟩ := pure_eq_ok hdone
    exact bind_of_error hb
  | _ :: _, _, _, _, hdone, hb => by
    obtain ⟨a, s₁, ha, h⟩ := bind_eq_ok hdone
    obtain ⟨as, s₂, has, h⟩ := bind_eq_ok h
    obtain ⟨-, rfl⟩ := pure_eq_ok h
    rw [List.cons_append, forEach, bind_of_ok ha, bind_of_error (forEach_of_error has hb)]

/-! ## What every success does -/

/-- A success of the computation takes a state to one that `R` relates it to. -/
def Moves (R : σ → σ → Prop) (x : StateExcept σ ε α) : Prop :=
  ∀ s a s', x s = .ok (a, s') → R s s'

namespace Moves

variable {R : σ → σ → Prop} {x : StateExcept σ ε α}

theorem pure (hrefl : ∀ s, R s s) (a : α) : Moves R (Pure.pure a : StateExcept σ ε α) := by
  intro s b s' h
  obtain ⟨-, rfl⟩ := pure_eq_ok h
  exact hrefl s

theorem ofExcept (hrefl : ∀ s, R s s) (y : Except ε α) :
    Moves R (StateExcept.ofExcept y : StateExcept σ ε α) := by
  intro s a s' h
  obtain ⟨-, rfl⟩ := ofExcept_eq_ok h
  exact hrefl s'

theorem bind (htrans : ∀ s t u, R s t → R t u → R s u) {f : α → StateExcept σ ε β}
    (hx : Moves R x) (hf : ∀ a, Moves R (f a)) : Moves R (x >>= f) := by
  intro s b s'' h
  obtain ⟨a, s', ha, hb⟩ := bind_eq_ok h
  exact htrans s s' s'' (hx s a s' ha) (hf a s' b s'' hb)

theorem forEach (hrefl : ∀ s, R s s) (htrans : ∀ s t u, R s t → R t u → R s u)
    {f : β → StateExcept σ ε α} (hf : ∀ b, Moves R (f b)) :
    ∀ bs : List β, Moves R (StateExcept.forEach f bs)
  | [] => pure hrefl []
  | b :: bs => bind htrans (hf b) fun _ => bind htrans (forEach hrefl htrans hf bs)
      fun _ => pure hrefl _

end Moves

/-! ## Successes that another state shares -/

/-- A success from a state is one from every state that `R` relates it to, with the same value, and
the states after are related. -/
def Stable (R : σ → σ → Prop) (x : StateExcept σ ε α) : Prop :=
  ∀ s t a s', R s t → x s = .ok (a, s') → ∃ t', x t = .ok (a, t') ∧ R s' t'

namespace Stable

variable {R : σ → σ → Prop} {x : StateExcept σ ε α}

theorem pure (a : α) : Stable R (Pure.pure a : StateExcept σ ε α) := by
  intro s t b s' hR h
  obtain ⟨rfl, rfl⟩ := pure_eq_ok h
  exact ⟨t, rfl, hR⟩

theorem fail (e : ε) : Stable R (StateExcept.fail e : StateExcept σ ε α) :=
  fun _ _ _ _ _ h => absurd h not_fail_eq_ok

theorem bind {f : α → StateExcept σ ε β} (hx : Stable R x) (hf : ∀ a, Stable R (f a)) :
    Stable R (x >>= f) := by
  intro s t b s'' hR h
  obtain ⟨a, s', ha, hb⟩ := bind_eq_ok h
  obtain ⟨t', ha', hR'⟩ := hx s t a s' hR ha
  obtain ⟨t'', hb', hR''⟩ := hf a s' t' b s'' hR' hb
  exact ⟨t'', (bind_of_ok ha').trans hb', hR''⟩

theorem map (hx : Stable R x) (g : α → β) : Stable R (x >>= fun a => Pure.pure (g a)) :=
  hx.bind fun a => pure (g a)

end Stable

/-! ## Computations that succeed -/

/-- From every state with `pre` the computation succeeds, and `post` holds of its value and of
the state after it. -/
def Total (pre : σ → Prop) (x : StateExcept σ ε α) (post : α → σ → Prop) : Prop :=
  ∀ s, pre s → ∃ a s', x s = .ok (a, s') ∧ post a s'

namespace Total

variable {pre pre' : σ → Prop} {post post' : α → σ → Prop} {x : StateExcept σ ε α}

theorem weaken (h : Total pre x post) (hpre : ∀ s, pre' s → pre s)
    (hpost : ∀ a s, post a s → post' a s) : Total pre' x post' := by
  intro s hs
  obtain ⟨a, s', hx, hp⟩ := h s (hpre s hs)
  exact ⟨a, s', hx, hpost a s' hp⟩

theorem pure {a : α} (h : ∀ s, pre s → post a s) :
    Total pre (Pure.pure a : StateExcept σ ε α) post :=
  fun s hs => ⟨a, s, rfl, h s hs⟩

theorem bind {m : α → σ → Prop} {f : α → StateExcept σ ε β} {post : β → σ → Prop}
    (hx : Total pre x m) (hf : ∀ a, Total (m a) (f a) post) : Total pre (x >>= f) post := by
  intro s hs
  obtain ⟨a, s₁, ha, hm⟩ := hx s hs
  obtain ⟨b, s₂, hb, hpost⟩ := hf a s₁ hm
  exact ⟨b, s₂, (bind_of_ok ha).trans hb, hpost⟩

/-- The rule of `forEach` : `I` is an invariant of the elements left, those done, and their
values. -/
theorem forEach {f : β → StateExcept σ ε α} {I : List β → List β → List α → σ → Prop}
    (step : ∀ done as b rest, Total (I (b :: rest) done as) (f b)
      fun a => I rest (done ++ [b]) (as ++ [a])) :
    ∀ (rest done : List β) (as : List α), Total (I rest done as) (StateExcept.forEach f rest)
      fun as' => I [] (done ++ rest) (as ++ as')
  | [], done, as => pure fun s hs => by simpa using hs
  | b :: rest, done, as => by
    refine (step done as b rest).bind fun a => ?_
    refine (forEach step rest (done ++ [b]) (as ++ [a])).bind fun as' => pure fun s hs => ?_
    simpa using hs

end Total

end StateExcept

/-! ## Lists of computations that may fail -/

/-- A function that may fail, on each element of a list : it gave every value, or it failed at
some element. -/
theorem mapM_cases {α β ε : Type} (f : α → Except ε β) : ∀ l : List α,
    (∃ bs, l.mapM f = .ok bs ∧ List.Forall₂ (fun a b => f a = .ok b) l bs) ∨
      ∃ a ∈ l, ∃ e, f a = .error e ∧ l.mapM f = .error e
  | [] => Or.inl ⟨[], rfl, .nil⟩
  | a :: l => by
    rw [List.mapM_cons]
    cases ha : f a with
    | error e => exact Or.inr ⟨a, by simp, e, ha, rfl⟩
    | ok b =>
      rcases mapM_cases f l with ⟨bs, hl, hbs⟩ | ⟨a', ha', e, he, hl⟩
      · exact Or.inl ⟨b :: bs, by rw [hl]; rfl, .cons ha hbs⟩
      · exact Or.inr ⟨a', List.mem_cons_of_mem a ha', e, he, by rw [hl]; rfl⟩

theorem forall₂_of_mapM {α β ε : Type} {f : α → Except ε β} {l : List α} {bs : List β}
    (h : l.mapM f = .ok bs) : List.Forall₂ (fun a b => f a = .ok b) l bs := by
  rcases mapM_cases f l with ⟨bs', hl, hbs⟩ | ⟨a, -, e, -, hl⟩
  · rw [hl] at h
    rwa [← Except.ok.inj h]
  · rw [hl] at h
    exact absurd h (by simp)

theorem mapM_of_ok {α β ε : Type} {f : α → Except ε β} {g : α → β} : ∀ {l : List α},
    (∀ a ∈ l, f a = .ok (g a)) → l.mapM f = .ok (l.map g)
  | [], _ => rfl
  | a :: l, h => by
    rw [List.mapM_cons, h a List.mem_cons_self, mapM_of_ok fun a' ha' => h a' (List.mem_cons_of_mem _ ha')]
    rfl

/-- A function that may fail, on the images of a list. -/
theorem mapM_map_eq {α α' β β' ε : Type} {f : α → Except ε β} {f' : α' → Except ε β'} {g : α → α'}
    {k : β → β'} : ∀ {l : List α}, (∀ a ∈ l, f' (g a) = (f a).map k) →
      (l.map g).mapM f' = (l.mapM f).map (List.map k)
  | [], _ => rfl
  | a :: l, h => by
    rw [List.map_cons, List.mapM_cons, List.mapM_cons, h a List.mem_cons_self,
      mapM_map_eq fun a' ha' => h a' (List.mem_cons_of_mem _ ha')]
    cases f a with
    | error e => rfl
    | ok b => cases l.mapM f <;> rfl

theorem mapM_of_error {α β ε : Type} {f : α → Except ε β} {a : α} {e : ε} (h : f a = .error e) :
    ∀ {l : List α}, a ∈ l → ∃ e', l.mapM f = .error e'
  | b :: l, ha => by
    rw [List.mapM_cons]
    cases hb : f b with
    | error e' => exact ⟨e', rfl⟩
    | ok v =>
      rcases List.mem_cons.mp ha with rfl | ha
      · exact absurd (h.symm.trans hb) (by simp)
      · obtain ⟨e', hl⟩ := mapM_of_error h ha
        rw [hl]
        exact ⟨e', rfl⟩

theorem exists_of_mem_mapM {α β ε : Type} {f : α → Except ε β} {l : List α} {bs : List β} {b : β}
    (h : l.mapM f = .ok bs) (hb : b ∈ bs) : ∃ a ∈ l, f a = .ok b := by
  have hall := forall₂_of_mapM h
  clear h
  induction hall with
  | nil => exact absurd hb List.not_mem_nil
  | @cons a b' l bs hab _ ih =>
    rcases List.mem_cons.mp hb with rfl | hb
    · exact ⟨a, List.mem_cons_self, hab⟩
    · obtain ⟨a', ha', hab'⟩ := ih hb
      exact ⟨a', List.mem_cons_of_mem _ ha', hab'⟩

theorem bind_pure_eq_ok_iff {ε β : Type} {x : Except ε Unit} {b b' : β} :
    (do x; pure b) = (.ok b' : Except ε β) ↔ x = .ok () ∧ b = b' := by
  cases x <;> simp [bind, Except.bind, pure, Except.pure]

/-- A loop that checks every element and counts it : it succeeds when all pass. -/
theorem foldlM_eq_ok_iff {α σ ε : Type} {f : σ → α → Except ε σ} {P : α → Prop} {next : σ → α → σ}
    (hf : ∀ s a s', f s a = .ok s' ↔ P a ∧ next s a = s') : ∀ (l : List α) (s s' : σ),
      l.foldlM f s = .ok s' ↔ (∀ a ∈ l, P a) ∧ l.foldl next s = s'
  | [], s, s' => by simp [pure, Except.pure]
  | a :: l, s, s' => by
    rw [List.foldlM_cons, List.foldl_cons, List.forall_mem_cons, and_assoc]
    cases ha : f s a with
    | error e =>
      have hP : ¬ P a := by
        intro hP
        rw [(hf s a _).mpr ⟨hP, rfl⟩] at ha
        cases ha
      exact iff_of_false (by simp [bind, Except.bind]) fun h => hP h.1
    | ok t =>
      obtain ⟨hP, rfl⟩ := (hf s a t).mp ha
      have hrest := foldlM_eq_ok_iff hf l (next s a) s'
      exact hrest.trans (by simp [hP])

end LocalCache
