import LocalCache.StateExcept

/-!
# Two computations in lockstep

`Mirrors R φ lost x y` compares how two computations ended : both with a value, that of the
second being `φ` of the first's, in states that `R` relates, or both with the same error. The
second may also have failed with a `lost` error, which the first has no part in.

Each way to compose computations keeps this, so a proof about two runs follows the program
instead of stating what it computes.
-/

namespace LocalCache

universe u

section Lockstep

variable {σ τ ε α β γ δ : Type u}

/-- How two computations ended, the second as the first or with a `lost` error. -/
inductive Mirrors (R : σ → τ → Prop) (φ : α → β) (lost : ε → Prop) :
    Except ε (α × σ) → Except ε (β × τ) → Prop
  | ok (a : α) {s : σ} {t : τ} (h : R s t) : Mirrors R φ lost (.ok (a, s)) (.ok (φ a, t))
  | error (e : ε) : Mirrors R φ lost (.error e) (.error e)
  | lost (x : Except ε (α × σ)) {e : ε} (h : lost e) : Mirrors R φ lost x (.error e)

namespace Mirrors

variable {R : σ → τ → Prop} {φ : α → β} {ψ : γ → δ} {lost : ε → Prop} {s : σ} {t : τ}

/-- A value that is `φ` of the other. -/
theorem of_eq {a : α} {b : β} (hb : b = φ a) (h : R s t) :
    Mirrors R φ lost (.ok (a, s)) (.ok (b, t)) := hb ▸ .ok a h

theorem mono {lost' : ε → Prop} {x : Except ε (α × σ)} {y : Except ε (β × τ)}
    (h : Mirrors R φ lost x y) (hlost : ∀ e, lost e → lost' e) : Mirrors R φ lost' x y := by
  cases h with
  | ok a h => exact .ok a h
  | error e => exact .error e
  | lost x he => exact .lost x (hlost _ he)

theorem pure {a : α} {b : β} (hb : b = φ a) (h : R s t) :
    Mirrors R φ lost ((Pure.pure a : StateExcept σ ε α) s) ((Pure.pure b : StateExcept τ ε β) t) :=
  of_eq hb h

theorem ofExcept {x : Except ε α} {y : Except ε β} (hy : y = x.map φ) (h : R s t) :
    Mirrors R φ lost ((StateExcept.ofExcept x : StateExcept σ ε α) s)
      ((StateExcept.ofExcept y : StateExcept τ ε β) t) := by
  subst hy
  cases x with
  | error e => exact .error e
  | ok a => exact .ok a h

theorem bind {x : StateExcept σ ε α} {y : StateExcept τ ε β} {g : α → StateExcept σ ε γ}
    {k : β → StateExcept τ ε δ} (hx : Mirrors R φ lost (x s) (y t))
    (hg : ∀ a s' t', x s = .ok (a, s') → y t = .ok (φ a, t') → R s' t' →
      Mirrors R ψ lost (g a s') (k (φ a) t')) :
    Mirrors R ψ lost ((x >>= g) s) ((y >>= k) t) := by
  generalize hxs : x s = rx at hx
  generalize hyt : y t = ry at hx
  cases hx with
  | ok a h =>
    rw [StateExcept.bind_of_ok hxs, StateExcept.bind_of_ok hyt]
    exact hg a _ _ hxs hyt h
  | error e =>
    rw [StateExcept.bind_of_error hxs, StateExcept.bind_of_error hyt]
    exact .error e
  | lost r he =>
    rw [StateExcept.bind_of_error hyt]
    exact .lost _ he

/-- The rule of `forEach`, over the images of a list. -/
theorem forEach {χ : γ → δ} {f : γ → StateExcept σ ε α} {g : δ → StateExcept τ ε β}
    (hf : ∀ c s t, R s t → Mirrors R φ lost (f c s) (g (χ c) t)) : ∀ (cs : List γ) {s : σ} {t : τ},
    R s t → Mirrors R (List.map φ) lost (StateExcept.forEach f cs s)
      (StateExcept.forEach g (cs.map χ) t)
  | [], _, _, h => .of_eq rfl h
  | c :: cs, s, t, h => by
    refine (hf c s t h).bind fun a s' t' _ _ h' => ?_
    refine (forEach hf cs h').bind fun as s'' t'' _ _ h'' => ?_
    exact .of_eq rfl h''

/-- A computation followed by a function of its value. -/
theorem map {x : StateExcept σ ε α} {y : StateExcept τ ε β} {g : α → γ} {k : β → δ}
    (hx : Mirrors R φ lost (x s) (y t)) (hk : ∀ a, k (φ a) = ψ (g a)) :
    Mirrors R ψ lost ((x >>= fun a => Pure.pure (g a)) s) ((y >>= fun b => Pure.pure (k b)) t) :=
  hx.bind fun a _ _ _ _ h => of_eq (hk a) h

end Mirrors

end Lockstep

end LocalCache
