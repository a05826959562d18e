import Mathlib.Tactic.Common

/-!
# Runs of a state machine

`runFrom step s events` is the state after the events, from `s`. `Along P` says that `P` holds
of every step of a run, in the state before it.

An invariant may be kept only by steps of which `P` holds (`Along.invariant`). What such steps
then do is again a property along the run (`Along.imp`). `Along.unwinding` compares a run with
the run of only some of its events.
-/

namespace LocalCache

universe u v

section Runs

variable {σ : Type u} {ε : Type v} (step : σ → ε → σ)

/-- The state after a sequence of events. -/
def runFrom (s : σ) (events : List ε) : σ := events.foldl step s

/-- `P` holds of every step of the run. -/
def Along (P : σ → ε → Prop) : σ → List ε → Prop
  | _, [] => True
  | s, e :: es => P s e ∧ Along P (step s e) es

variable {step}

@[simp] theorem runFrom_nil (s : σ) : runFrom step s [] = s := rfl

@[simp] theorem runFrom_cons (s : σ) (e : ε) (es : List ε) :
    runFrom step s (e :: es) = runFrom step (step s e) es := rfl

theorem runFrom_append (s : σ) (es es' : List ε) :
    runFrom step s (es ++ es') = runFrom step (runFrom step s es) es' := List.foldl_append

/-- The rule of runs : what holds at the start and is kept by every step holds of every
state reached. -/
theorem runFrom_induction {I : σ → Prop} (keeps : ∀ s e, I s → I (step s e)) :
    ∀ {s : σ} (events : List ε), I s → I (runFrom step s events)
  | _, [], h => h
  | _, e :: es, h => runFrom_induction keeps es (keeps _ e h)

/-- The same backwards : what holds at the end held at the start. -/
theorem runFrom_back {I : σ → Prop} (back : ∀ s e, I (step s e) → I s) :
    ∀ {s : σ} (events : List ε), I (runFrom step s events) → I s
  | _, [], h => h
  | s, e :: es, h => back s e (runFrom_back back (s := step s e) es h)

namespace Along

variable {P Q : σ → ε → Prop} {I : σ → Prop}

/-- A property along a run holds at every event of it. -/
theorem at_event : ∀ {s : σ} (before : List ε) {e : ε} {after : List ε},
    Along step P s (before ++ e :: after) → P (runFrom step s before) e
  | _, [], _, _, h => h.1
  | s, e :: before, _, _, h => at_event (s := step s e) before h.2

/-- A property of every event, in the state after those before it. -/
theorem of_take : ∀ {s : σ} {events : List ε},
    (∀ n (hn : n < events.length), P (runFrom step s (events.take n)) events[n]) →
      Along step P s events
  | _, [], _ => trivial
  | s, e :: es, h => ⟨h 0 (by simp), of_take (s := step s e) fun n hn =>
      h (n + 1) (Nat.succ_lt_succ hn)⟩

/-- What holds of every event holds along the run, too. -/
theorem and_forall {Q : ε → Prop} : ∀ {s : σ} {events : List ε}, Along step P s events →
    (∀ e ∈ events, Q e) → Along step (fun s e => P s e ∧ Q e) s events
  | _, [], _, _ => trivial
  | s, e :: _, h, hQ => ⟨⟨h.1, hQ e List.mem_cons_self⟩,
      and_forall (s := step s e) h.2 fun e' he' => hQ e' (List.mem_cons_of_mem _ he')⟩

/-- An invariant that the steps with `P` keep holds at the end of a run of such steps. -/
theorem invariant (keeps : ∀ s e, I s → P s e → I (step s e)) :
    ∀ {s : σ} {events : List ε}, I s → Along step P s events → I (runFrom step s events)
  | _, [], hI, _ => hI
  | s, e :: _, hI, h => invariant keeps (s := step s e) (keeps s e hI h.1) h.2

/-- What the steps with `P` do in the states of an invariant. -/
theorem imp (keeps : ∀ s e, I s → P s e → I (step s e)) (does : ∀ s e, I s → P s e → Q s e) :
    ∀ {s : σ} {events : List ε}, I s → Along step P s events → Along step Q s events
  | _, [], _, _ => trivial
  | s, e :: _, hI, h => ⟨does s e hI h.1, imp keeps does (s := step s e) (keeps s e hI h.1) h.2⟩

/-- What holds at the end of a run, and before a step whenever it holds after, holds after every
step of the run. -/
theorem of_end (back : ∀ s e, I (step s e) → I s) : ∀ {s : σ} {events : List ε},
    I (runFrom step s events) → Along step (fun s e => I (step s e)) s events
  | _, [], _ => trivial
  | s, e :: es, h => ⟨runFrom_back back (s := step s e) es h, of_end back (s := step s e) h⟩

/-- A run related to the run of its kept events : a kept event is a step of both, any other
only of the first. -/
theorem unwinding {R : σ → σ → Prop} {keep : ε → Bool}
    (kept : ∀ s t e, R s t → P s e → keep e = true → R (step s e) (step t e))
    (dropped : ∀ s t e, R s t → P s e → keep e = false → R (step s e) t) :
    ∀ {s t : σ} {events : List ε}, R s t → Along step P s events →
      R (runFrom step s events) (runFrom step t (events.filter keep))
  | _, _, [], hR, _ => hR
  | s, t, e :: es, hR, h => by
    cases hkeep : keep e with
    | true =>
      rw [List.filter_cons_of_pos hkeep]
      exact unwinding kept dropped (kept s t e hR h.1 hkeep) h.2
    | false =>
      rw [List.filter_cons_of_neg (by simp [hkeep])]
      exact unwinding kept dropped (dropped s t e hR h.1 hkeep) h.2

end Along

end Runs

end LocalCache
