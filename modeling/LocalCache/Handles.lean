import LocalCache.Locks
import LocalCache.Runs
import LocalCache.Repository
import Mathlib.Order.Interval.Finset.Nat

/-!
# Handles that threads share

A `ReadPool` holds its engines behind one lock each, and checks one out for a call : it takes a
ticket for where to start, tries every lock once, and if none was free waits for the one it
started at. A `SyncCacheEngine` and an `AsyncCacheEngine` wait for the lock of their only engine.
`HandleState` is the locks and where every thread is; an event takes one thread through one atomic
step, and between the steps of a checkout the others may take any.

No engine is ever held by two threads, and a thread that waits holds none (`exclusive_of_run`). So
nothing deadlocks, as long as no thread begins a call while it holds an engine : one that cannot go
on waits for one that can (`finishes_of_run`). A checkout does not wait while some engine stays free
for it (`served_of_run`), and fails only because the lock it started at is poisoned
(`refused_of_run`). The tickets go round the engines, up to the wrap of the counter
(`starts_of_run`).
-/

namespace LocalCache

/-! ## The checkout -/

/-- What threads may share. -/
inductive Handle
  | readPool (size : ℕ)
  | syncCacheEngine
  | asyncCacheEngine
  deriving DecidableEq, Repr

/-- Where a thread is : at no call, trying the `tried`th lock from `start`, waiting for the lock of
`start`, or holding a lock. -/
inductive Checkout
  | idle
  | scanning (start tried : ℕ)
  | waiting (start : ℕ)
  | holding (slot : ℕ)
  deriving DecidableEq, Repr

namespace Checkout

/-- The lock held. -/
def slot? : Checkout → Option ℕ
  | holding slot => some slot
  | idle | scanning _ _ | waiting _ => none

/-- It is a place in a checkout among so many engines. -/
def Within (size : ℕ) : Checkout → Prop
  | idle => True
  | scanning start _ | waiting start => start < size
  | holding slot => slot < size

@[simp] theorem slot?_eq_some {c : Checkout} {k : ℕ} : c.slot? = some k ↔ c = .holding k := by
  cases c <;> simp [slot?]

end Checkout

namespace Handle

/-- The number of engines. -/
def size : Handle → ℕ
  | readPool size => size
  | syncCacheEngine | asyncCacheEngine => 1

/-- The handle was opened : `ReadPool::open` refuses a size of zero. -/
def Opened (h : Handle) : Prop := 0 < h.size

instance (h : Handle) : Decidable h.Opened := inferInstanceAs (Decidable (0 < h.size))

/-- How a call begins, with the value of the counter. -/
def enter (h : Handle) (ticket : ℕ) : Checkout :=
  match h with
  | readPool size => .scanning (ticket % size) 0
  | syncCacheEngine | asyncCacheEngine => .waiting 0

end Handle

/-- The locks of a handle, the counter of its tickets, and where each thread is. `starts` and
`refused` are history variables : where the checkouts started, and the threads that were refused,
in order. -/
structure HandleState where
  locks : ℕ → Lock
  next : ℕ
  checkout : ℕ → Checkout
  starts : List ℕ
  refused : List ℕ

/-- A step of a thread : it begins a call, goes on with its checkout, or leaves the engine. -/
inductive HandleAction
  | begin
  | advance
  | release (panics : Bool)
  deriving DecidableEq, Repr

structure HandleEvent where
  thread : ℕ
  action : HandleAction
  deriving DecidableEq, Repr

namespace HandleState

def init : HandleState := ⟨fun _ => .free, 0, fun _ => .idle, [], []⟩

/-- The thread is now here. -/
def goes (s : HandleState) (t : ℕ) (c : Checkout) : HandleState :=
  { s with checkout := Function.update s.checkout t c }

/-- The thread took this lock. -/
def takes (s : HandleState) (t k : ℕ) (l : Lock) : HandleState :=
  { s with locks := Function.update s.locks k l
           checkout := Function.update s.checkout t (.holding k) }

variable (h : Handle)

/-- A pool's `fetch_add` takes the ticket and moves the counter on. -/
def begins (s : HandleState) (t : ℕ) : HandleState :=
  match h with
  | .readPool size =>
    { s.goes t (h.enter s.next) with
      next := (s.next + 1) % 2 ^ 64
      starts := s.starts ++ [s.next % size] }
  | .syncCacheEngine | .asyncCacheEngine => s.goes t (h.enter s.next)

/-- One more lock is tried, or all were. -/
def tries (s : HandleState) (t start tried : ℕ) : HandleState :=
  if tried < h.size then
    match (s.locks ((start + tried) % h.size)).tryLock t with
    | some l => s.takes t ((start + tried) % h.size) l
    | none => s.goes t (.scanning start (tried + 1))
  else s.goes t (.waiting start)

/-- The lock waited for is still held, poisoned, or taken. -/
def waits (s : HandleState) (t start : ℕ) : HandleState :=
  match (s.locks start).lock t with
  | .held => s
  | .poisoned => { s.goes t .idle with refused := s.refused ++ [t] }
  | .locked l => s.takes t start l

/-- The thread leaves the engine it holds. -/
def leaves (s : HandleState) (t k : ℕ) (panics : Bool) : HandleState :=
  { s.goes t .idle with locks := Function.update s.locks k ((s.locks k).unlock panics) }

/-- A thread begins a call only while it is in none : calls that a callback makes on the handle whose
engine its thread holds are left out, as the locks are not reentrant. -/
def step (s : HandleState) (ev : HandleEvent) : HandleState :=
  match ev.action, s.checkout ev.thread with
  | .begin, .idle => s.begins h ev.thread
  | .advance, .scanning start tried => s.tries h ev.thread start tried
  | .advance, .waiting start => s.waits ev.thread start
  | .release panics, .holding k => s.leaves ev.thread k panics
  | _, _ => s

/-- Some run from new locks reaches the state. -/
def Reached (s : HandleState) : Prop := ∃ events, runFrom (step h) init events = s

/-- The lock a thread holds. -/
def holds (s : HandleState) : ℕ → Option ℕ := Checkout.slot? ∘ s.checkout

end HandleState

/-! ## What a step does -/

namespace HandleState

variable {h : Handle} {s : HandleState} {ev : HandleEvent} {t k : ℕ}

@[simp] theorem holds_eq_some : s.holds t = some k ↔ s.checkout t = .holding k :=
  Checkout.slot?_eq_some

@[simp] theorem holds_goes (s : HandleState) (t : ℕ) (c : Checkout) :
    (s.goes t c).holds = Function.update s.holds t c.slot? := Function.comp_update _ _ _ _

@[simp] theorem holds_takes (s : HandleState) (t k : ℕ) (l : Lock) :
    (s.takes t k l).holds = Function.update s.holds t (some k) := Function.comp_update _ _ _ _

@[simp] theorem locks_goes (s : HandleState) (t : ℕ) (c : Checkout) :
    (s.goes t c).locks = s.locks := rfl

@[simp] theorem locks_takes (s : HandleState) (t k : ℕ) (l : Lock) :
    (s.takes t k l).locks = Function.update s.locks k l := rfl

@[simp] theorem locks_leaves (s : HandleState) (t k : ℕ) (panics : Bool) :
    (s.leaves t k panics).locks = Function.update s.locks k ((s.locks k).unlock panics) := rfl

@[simp] theorem locks_begins (s : HandleState) (t : ℕ) : (s.begins h t).locks = s.locks := by
  cases h <;> rfl

@[simp] theorem refused_begins (s : HandleState) (t : ℕ) :
    (s.begins h t).refused = s.refused := by
  cases h <;> rfl

@[simp] theorem checkout_begins (s : HandleState) (t : ℕ) :
    (s.begins h t).checkout = Function.update s.checkout t (h.enter s.next) := by
  cases h <;> rfl

@[simp] theorem holds_begins (s : HandleState) (t : ℕ) :
    (s.begins h t).holds = Function.update s.holds t (h.enter s.next).slot? := by
  cases h <;> exact Function.comp_update _ _ _ _

@[simp] theorem holds_leaves (s : HandleState) (t k : ℕ) (panics : Bool) :
    (s.leaves t k panics).holds = Function.update s.holds t none := Function.comp_update _ _ _ _

/-- What a step does to the state. Only a step of `takes` and one of `leaves` change a lock. -/
inductive Did (h : Handle) (s : HandleState) (ev : HandleEvent) : HandleState → Prop
  | nothing : Did h s ev s
  | begins (hidle : s.checkout ev.thread = .idle) : Did h s ev (s.begins h ev.thread)
  | skips (start tried : ℕ) (hscan : s.checkout ev.thread = .scanning start tried)
      (hlt : tried < h.size) (hno : ¬(s.locks ((start + tried) % h.size)).Available) :
      Did h s ev (s.goes ev.thread (.scanning start (tried + 1)))
  | turns (start tried : ℕ) (hscan : s.checkout ev.thread = .scanning start tried)
      (hge : h.size ≤ tried) : Did h s ev (s.goes ev.thread (.waiting start))
  | finds (start tried : ℕ) (hscan : s.checkout ev.thread = .scanning start tried)
      (hlt : tried < h.size) (hfree : (s.locks ((start + tried) % h.size)).Available) :
      Did h s ev (s.takes ev.thread ((start + tried) % h.size) ⟨some ev.thread, false⟩)
  | gets (start : ℕ) (hwait : s.checkout ev.thread = .waiting start)
      (hfree : (s.locks start).Available) :
      Did h s ev (s.takes ev.thread start ⟨some ev.thread, false⟩)
  | fails (start : ℕ) (hwait : s.checkout ev.thread = .waiting start)
      (howner : (s.locks start).owner = none) (hpoison : (s.locks start).poisoned = true) :
      Did h s ev { s.goes ev.thread .idle with refused := s.refused ++ [ev.thread] }
  | leaves (k : ℕ) (panics : Bool) (haction : ev.action = .release panics)
      (hhold : s.checkout ev.thread = .holding k) : Did h s ev (s.leaves ev.thread k panics)

theorem did_step (h : Handle) (s : HandleState) (ev : HandleEvent) : Did h s ev (s.step h ev) := by
  unfold step
  split
  · next _ hidle => exact .begins hidle
  · next start tried _ hscan =>
    unfold tries
    split_ifs with hlt
    · cases htry : (s.locks ((start + tried) % h.size)).tryLock ev.thread with
      | none => exact .skips start tried hscan hlt (Lock.tryLock_eq_none.mp htry)
      | some l =>
        obtain ⟨hfree, rfl⟩ := Lock.tryLock_eq_some.mp htry
        exact .finds start tried hscan hlt hfree
    · exact .turns start tried hscan (not_lt.mp hlt)
  · next start _ hwait =>
    unfold waits
    cases hlock : (s.locks start).lock ev.thread with
    | held => exact .nothing
    | poisoned =>
      obtain ⟨howner, hpoison⟩ := Lock.lock_eq_poisoned.mp hlock
      exact .fails start hwait howner hpoison
    | locked l =>
      obtain ⟨hfree, rfl⟩ := Lock.lock_eq_locked.mp hlock
      exact .gets start hwait hfree
  · next panics k haction hhold => exact .leaves k panics haction hhold
  · exact .nothing

/-! ## Safety -/

/-- What holds in every state. -/
structure Sound (h : Handle) (s : HandleState) : Prop where
  owners : Owners s.holds s.locks
  within : ∀ t, (s.checkout t).Within h.size

theorem sound_init (h : Handle) : Sound h init := ⟨.free, fun _ => trivial⟩

theorem within_update {size : ℕ} {c : Checkout} (hs : ∀ u, (s.checkout u).Within size)
    (hc : c.Within size) (u : ℕ) : (Function.update s.checkout t c u).Within size := by
  by_cases hu : u = t
  · subst hu
    rwa [Function.update_self]
  · rw [Function.update_of_ne hu]
    exact hs u

theorem Handle.slot?_enter (h : Handle) (ticket : ℕ) : (h.enter ticket).slot? = none := by
  cases h <;> rfl

theorem Handle.within_enter (hopen : h.Opened) (ticket : ℕ) : (h.enter ticket).Within h.size := by
  cases h with
  | readPool size => exact Nat.mod_lt _ hopen
  | syncCacheEngine | asyncCacheEngine => exact Nat.one_pos

theorem Sound.did {s' : HandleState} (hs : Sound h s) (hopen : h.Opened) (hdid : Did h s ev s') :
    Sound h s' := by
  -- a step that moves a thread which holds nothing to where it holds nothing
  have hgoes : ∀ c : Checkout, s.holds ev.thread = none → c.slot? = none →
      Function.update s.holds ev.thread c.slot? = s.holds := fun c ht hc => by
    rw [hc, ← ht, Function.update_eq_self]
  have hnone : ∀ c, s.checkout ev.thread = c → c.slot? = none → s.holds ev.thread = none :=
    fun c hc hslot => by rw [holds, Function.comp_apply, hc, hslot]
  cases hdid with
  | nothing => exact hs
  | begins hidle =>
    refine ⟨?_, fun u => ?_⟩
    swap
    · rw [checkout_begins]
      exact within_update hs.within (Handle.within_enter hopen _) u
    rw [holds_begins, hgoes _ (hnone _ hidle rfl) (Handle.slot?_enter h _), locks_begins]
    exact hs.owners
  | skips start tried hscan hlt hno =>
    have hstart := hs.within ev.thread
    rw [hscan] at hstart
    refine ⟨?_, within_update hs.within hstart⟩
    rw [holds_goes, hgoes _ (hnone _ hscan rfl) rfl]
    exact hs.owners
  | turns start tried hscan hge =>
    have hstart := hs.within ev.thread
    rw [hscan] at hstart
    refine ⟨?_, within_update hs.within hstart⟩
    rw [holds_goes, hgoes _ (hnone _ hscan rfl) rfl]
    exact hs.owners
  | finds start tried hscan hlt hfree =>
    refine ⟨?_, within_update hs.within (Nat.mod_lt _ hopen)⟩
    rw [holds_takes]
    exact hs.owners.acquire (hnone _ hscan rfl) hfree
  | gets start hwait hfree =>
    have hstart := hs.within ev.thread
    rw [hwait] at hstart
    refine ⟨?_, within_update hs.within hstart⟩
    rw [holds_takes]
    exact hs.owners.acquire (hnone _ hwait rfl) hfree
  | fails start hwait howner hpoison =>
    refine ⟨?_, within_update hs.within trivial⟩
    show Owners (s.goes ev.thread .idle).holds s.locks
    rw [holds_goes, hgoes _ (hnone _ hwait rfl) rfl]
    exact hs.owners
  | leaves k panics haction hhold =>
    refine ⟨?_, within_update hs.within trivial⟩
    rw [holds_leaves]
    exact hs.owners.release (holds_eq_some.mpr hhold) panics

theorem Sound.run (hopen : h.Opened) (hs : Sound h s) (events : List HandleEvent) :
    Sound h (runFrom (step h) s events) :=
  runFrom_induction (fun s ev hs => hs.did hopen (did_step h s ev)) events hs

theorem Reached.sound (hopen : h.Opened) (hs : Reached h s) : Sound h s := by
  obtain ⟨events, rfl⟩ := hs
  exact (sound_init h).run hopen events

/-- The lock of a held engine is its holder's, and not poisoned. -/
theorem Sound.lock_of_holding (hs : Sound h s) (ht : s.checkout t = .holding k) :
    s.locks k = ⟨some t, false⟩ := by
  have howner := (hs.owners.owner k t).mpr (holds_eq_some.mpr ht)
  have hclean : (s.locks k).poisoned = false := by
    by_contra hp
    rw [hs.owners.poisoned k (by simpa using hp)] at howner
    exact absurd howner (by simp)
  rw [← howner, ← hclean]

/-- In every state an engine is held by at most one thread, its lock's owner, and no engine whose
lock is poisoned is held. -/
theorem exclusive_of_run (hopen : h.Opened) (hs : Reached h s) :
    (∀ t t' k, s.checkout t = .holding k → s.checkout t' = .holding k → t = t') ∧
      ∀ t k, s.checkout t = .holding k →
        k < h.size ∧ s.locks k = ⟨some t, false⟩ := by
  have hsound := hs.sound hopen
  refine ⟨fun t t' k ht ht' => hsound.owners.exclusive (holds_eq_some.mpr ht)
    (holds_eq_some.mpr ht'), fun t k ht => ⟨?_, hsound.lock_of_holding ht⟩⟩
  have hwithin := hsound.within t
  rwa [ht] at hwithin

/-- Two threads at two engines, and one that waits. -/
def threeThreads : List HandleEvent :=
  [⟨0, .begin⟩, ⟨0, .advance⟩, ⟨1, .begin⟩, ⟨1, .advance⟩, ⟨2, .begin⟩, ⟨2, .advance⟩, ⟨2, .advance⟩,
    ⟨2, .advance⟩]

theorem exclusive_of_run_threeThreads :
    let s := runFrom (step (.readPool 2)) init threeThreads
    s.checkout 1 = .holding 1 ∧ 1 < 2 ∧ s.locks 1 = ⟨some 1, false⟩ :=
  ⟨by decide, (exclusive_of_run (h := .readPool 2) (by decide) ⟨threeThreads, rfl⟩).2 1 1 (by decide)⟩

/-! ## Progress -/

@[simp] theorem step_advance_scanning {start tried : ℕ} (hscan : s.checkout t = .scanning start tried) :
    s.step h ⟨t, .advance⟩ = s.tries h t start tried := by
  rw [step, hscan]

@[simp] theorem step_advance_waiting {start : ℕ} (hwait : s.checkout t = .waiting start) :
    s.step h ⟨t, .advance⟩ = s.waits t start := by
  rw [step, hwait]

@[simp] theorem step_release {panics : Bool} (hhold : s.checkout t = .holding k) :
    s.step h ⟨t, .release panics⟩ = s.leaves t k panics := by
  rw [step, hhold]

/-- The thread is served : it holds an engine, or its call returned an error. -/
def Served (s : HandleState) (t : ℕ) : Prop :=
  (∃ k, s.checkout t = .holding k) ∨ s.checkout t = .idle

/-- A scan that goes on by itself finds a lock, or comes to wait for the one it started at and
changes nothing else. -/
theorem scan_ends (h : Handle) (t : ℕ) : ∀ (n : ℕ) {s : HandleState} {start tried : ℕ},
    s.checkout t = .scanning start tried → h.size ≤ tried + n → ∃ m ≤ n + 1,
      (∃ k, (runFrom (step h) s (List.replicate m ⟨t, .advance⟩)).checkout t = .holding k) ∨
        runFrom (step h) s (List.replicate m ⟨t, .advance⟩) = s.goes t (.waiting start)
  | 0, s, start, tried, hscan, hn => by
    refine ⟨1, le_rfl, Or.inr ?_⟩
    rw [List.replicate_one, runFrom_cons, runFrom_nil, step_advance_scanning hscan, tries,
      if_neg (by omega)]
  | n + 1, s, start, tried, hscan, hn => by
    by_cases hlt : tried < h.size
    · cases htry : (s.locks ((start + tried) % h.size)).tryLock t with
      | some l =>
        refine ⟨1, by omega, Or.inl ⟨(start + tried) % h.size, ?_⟩⟩
        rw [List.replicate_one, runFrom_cons, runFrom_nil, step_advance_scanning hscan, tries,
          if_pos hlt, htry]
        exact Function.update_self _ _ _
      | none =>
        have hstep : s.step h ⟨t, .advance⟩ = s.goes t (.scanning start (tried + 1)) := by
          rw [step_advance_scanning hscan, tries, if_pos hlt, htry]
        obtain ⟨m, hm, hrest⟩ := scan_ends h t n (s := s.goes t (.scanning start (tried + 1)))
          (Function.update_self _ _ _) (by omega)
        refine ⟨m + 1, by omega, ?_⟩
        rw [List.replicate_succ, runFrom_cons, hstep]
        refine hrest.imp_right fun hwaits => ?_
        rw [hwaits]
        simp [goes]
    · refine ⟨1, by omega, Or.inr ?_⟩
      rw [List.replicate_one, runFrom_cons, runFrom_nil, step_advance_scanning hscan, tries,
        if_neg hlt]

/-- A thread that waits for a lock held by none is served at its next step. -/
theorem served_of_owner_none {start : ℕ} (hwait : s.checkout t = .waiting start)
    (howner : (s.locks start).owner = none) : Served (s.step h ⟨t, .advance⟩) t := by
  rw [step_advance_waiting hwait, waits]
  cases hlock : (s.locks start).lock t with
  | held => exact absurd howner (Lock.lock_eq_held.mp hlock)
  | poisoned => exact Or.inr (Function.update_self _ _ _)
  | locked l => exact Or.inl ⟨start, Function.update_self _ _ _⟩

/-- A waiting thread is served once the holder of its lock left it. -/
theorem wait_ends (hs : Sound h s) {start : ℕ} (hwait : s.checkout t = .waiting start) :
    ∃ events : List HandleEvent, events.length ≤ 2 ∧
      (∀ ev ∈ events, ev = ⟨t, .advance⟩ ∨
        s.checkout ev.thread = .holding start ∧ ev.action = .release false) ∧
      Served (runFrom (step h) s events) t := by
  cases howner : (s.locks start).owner with
  | none => exact ⟨[⟨t, .advance⟩], by simp, by simp, served_of_owner_none hwait howner⟩
  | some u =>
    have hu : s.checkout u = .holding start := holds_eq_some.mp ((hs.owners.owner start u).mp howner)
    have hne : t ≠ u := fun htu => by simp [← htu, hwait] at hu
    refine ⟨[⟨u, .release false⟩, ⟨t, .advance⟩], by simp, by simp [hu], ?_⟩
    rw [runFrom_cons, runFrom_cons, runFrom_nil, step_release hu]
    have hwait' : (s.leaves u start false).checkout t = .waiting start :=
      (Function.update_of_ne hne _ _).trans hwait
    exact served_of_owner_none hwait' (by simp [leaves, Lock.unlock])

/-- Nothing deadlocks : from every state a call is served by steps of its own, and of threads that
leave the engine they hold. -/
theorem finishes_of_run (hopen : h.Opened) (hs : Reached h s) (t : ℕ) (hcall : s.checkout t ≠ .idle) :
    ∃ events : List HandleEvent, events.length ≤ h.size + 3 ∧
      (∀ ev ∈ events, ev = ⟨t, .advance⟩ ∨
        (∃ k, s.checkout ev.thread = .holding k) ∧ ev.action = .release false) ∧
      Served (runFrom (step h) s events) t := by
  have hsound := hs.sound hopen
  cases hcheckout : s.checkout t with
  | idle => exact absurd hcheckout hcall
  | holding k => exact ⟨[], by simp, by simp, Or.inl ⟨k, hcheckout⟩⟩
  | waiting start =>
    obtain ⟨events, hlength, hall, hserved⟩ := wait_ends hsound hcheckout
    exact ⟨events, by omega, fun ev hev => (hall ev hev).imp_right (And.imp_left fun hk => ⟨_, hk⟩),
      hserved⟩
  | scanning start tried =>
    obtain ⟨m, hm, hfound | hwaits⟩ := scan_ends h t h.size hcheckout (by omega)
    · exact ⟨_, by simpa using by omega, fun ev hev => Or.inl (List.eq_of_mem_replicate hev),
        Or.inl hfound⟩
    · have hsound' := hsound.run hopen (List.replicate m ⟨t, .advance⟩)
      rw [hwaits] at hsound'
      have hwait : (s.goes t (.waiting start)).checkout t = .waiting start := Function.update_self _ _ _
      obtain ⟨events, hlength, hall, hserved⟩ := wait_ends hsound' hwait
      refine ⟨List.replicate m ⟨t, .advance⟩ ++ events, ?_, fun ev hev => ?_, ?_⟩
      · rw [List.length_append, List.length_replicate]
        omega
      · rcases List.mem_append.mp hev with hev | hev
        · exact Or.inl (List.eq_of_mem_replicate hev)
        · refine (hall ev hev).imp_right fun ⟨hk, hrelease⟩ => ⟨⟨start, ?_⟩, hrelease⟩
          have hne : ev.thread ≠ t := fun ht => by simp [ht, goes] at hk
          exact (Function.update_of_ne hne _ _).symm.trans hk
      · rw [runFrom_append, hwaits]
        exact hserved

theorem finishes_of_run_threeThreads :
    let s := runFrom (step (.readPool 2)) init threeThreads
    s.checkout 2 = .waiting 0 ∧ ∃ events : List HandleEvent, events.length ≤ 5 ∧
      (∀ ev ∈ events, ev = ⟨2, .advance⟩ ∨
        (∃ k, s.checkout ev.thread = .holding k) ∧ ev.action = .release false) ∧
      Served (runFrom (step (.readPool 2)) s events) 2 :=
  ⟨by decide,
    finishes_of_run (h := .readPool 2) (by decide) ⟨threeThreads, rfl⟩ 2 (by decide)⟩

/-! ## No wait while an engine is free -/

/-- Engine `k` is free for the thread or held by it, and the thread goes on by itself. -/
def FreeFor (t k : ℕ) (s : HandleState) (ev : HandleEvent) : Prop :=
  ((s.locks k).Available ∨ s.checkout t = .holding k) ∧ (ev.thread = t → ev.action = .advance)

theorem checkout_step_of_ne (h : Handle) (s : HandleState) {ev : HandleEvent} (hne : ev.thread ≠ t) :
    (s.step h ev).checkout t = s.checkout t := by
  have hdid := did_step h s ev
  generalize s.step h ev = s' at hdid
  cases hdid with
  | nothing => rfl
  | begins _ =>
    rw [checkout_begins]
    exact Function.update_of_ne hne.symm _ _
  | skips _ _ _ _ _ | turns _ _ _ _ | finds _ _ _ _ _ | gets _ _ _ | fails _ _ _ _
  | leaves _ _ _ _ =>
    exact Function.update_of_ne hne.symm _ _

/-- A thread that holds an engine and does not leave it keeps it. -/
theorem holding_run {slot : ℕ} : ∀ {events : List HandleEvent} {s : HandleState},
    s.checkout t = .holding slot → Along (step h) (FreeFor t k) s events →
      (runFrom (step h) s events).checkout t = .holding slot
  | [], _, hhold, _ => hhold
  | ev :: events, s, hhold, hfree => by
    have hhold' : (s.step h ev).checkout t = .holding slot := ?_
    · have hrest := holding_run hhold' hfree.2
      exact hrest
    by_cases ht : ev.thread = t
    · obtain ⟨u, action⟩ := ev
      obtain rfl : t = u := ht.symm
      obtain rfl : action = .advance := hfree.1.2 rfl
      rw [step, hhold]
      exact hhold
    · rw [checkout_step_of_ne h s ht, hhold]

/-- While engine `k` stays free for it, a scan finds an engine or gets one lock on with every step,
never past `k`. -/
theorem scanning_run {start d : ℕ} (hd : d < h.size) (hk : (start + d) % h.size = k) :
    ∀ {events : List HandleEvent} {s : HandleState} {tried : ℕ},
      s.checkout t = .scanning start tried → tried ≤ d → Along (step h) (FreeFor t k) s events →
        (∃ slot, (runFrom (step h) s events).checkout t = .holding slot) ∨
          ∃ tried', tried' ≤ d ∧ tried' = tried + events.countP (·.thread = t) ∧
            (runFrom (step h) s events).checkout t = .scanning start tried'
  | [], _, tried, hscan, htried, _ => Or.inr ⟨tried, htried, rfl, hscan⟩
  | ev :: events, s, tried, hscan, htried, hfree => by
    by_cases ht : ev.thread = t
    · obtain ⟨u, action⟩ := ev
      obtain rfl : t = u := ht.symm
      obtain rfl : action = .advance := hfree.1.2 rfl
      have hlt : tried < h.size := by omega
      have hstep := step_advance_scanning (h := h) hscan
      rw [tries, if_pos hlt] at hstep
      cases htry : (s.locks ((start + tried) % h.size)).tryLock t with
      | some l =>
        rw [htry] at hstep
        refine Or.inl ⟨(start + tried) % h.size, holding_run (s := s.step h ⟨t, .advance⟩) ?_ hfree.2⟩
        rw [hstep]
        exact Function.update_self _ _ _
      | none =>
        rw [htry] at hstep
        -- the lock tried was not that of `k`, which is free
        have hne : tried ≠ d := fun hd' => by
          rw [hd', hk] at htry
          refine Lock.tryLock_eq_none.mp htry (hfree.1.1.resolve_right fun hhold => ?_)
          rw [hscan] at hhold
          cases hhold
        have hscan' : (s.step h ⟨t, .advance⟩).checkout t = .scanning start (tried + 1) := by
          rw [hstep]
          exact Function.update_self _ _ _
        rcases scanning_run hd hk (s := s.step h ⟨t, .advance⟩) hscan' (by omega) hfree.2 with
          hfound | ⟨tried', hle, hcount, hrest⟩
        · exact Or.inl hfound
        · refine Or.inr ⟨tried', hle, ?_, hrest⟩
          rw [List.countP_cons_of_pos (by simp)]
          omega
    · have hscan' : (s.step h ev).checkout t = .scanning start tried := by
        rw [checkout_step_of_ne h s ht, hscan]
      rw [List.countP_cons_of_neg (by simpa using ht)]
      exact scanning_run hd hk (s := s.step h ev) hscan' htried hfree.2

/-- While some engine stays free for it, a checkout of a pool does not wait for a lock : it holds an
engine after at most as many steps as there are engines, whatever the others do in between. -/
theorem served_of_run {size : ℕ} (hsize : k < size) (hidle : s.checkout t = .idle)
    (events : List HandleEvent)
    (hfree : Along (step (.readPool size)) (FreeFor t k) (s.step (.readPool size) ⟨t, .begin⟩) events) :
    let s' := runFrom (step (.readPool size)) s (⟨t, .begin⟩ :: events)
    (∀ start, s'.checkout t ≠ .waiting start) ∧
      (size ≤ events.countP (·.thread = t) → ∃ slot, s'.checkout t = .holding slot) := by
  intro s'
  have hsize' : 0 < size := by omega
  have hstart : s.next % size < size := Nat.mod_lt _ hsize'
  have hscan : (s.step (.readPool size) ⟨t, .begin⟩).checkout t = .scanning (s.next % size) 0 := by
    rw [step, hidle]
    exact Function.update_self _ _ _
  -- the distance of engine `k` from the start, round the pool
  have hd : (k + size - s.next % size) % size < size := Nat.mod_lt _ hsize'
  have hk : (s.next % size + (k + size - s.next % size) % size) % size = k := by
    rw [Nat.add_mod_mod, show s.next % size + (k + size - s.next % size) = k + size by omega,
      Nat.add_mod_right, Nat.mod_eq_of_lt hsize]
  rcases scanning_run (h := .readPool size) hd hk hscan (Nat.zero_le _) hfree with
    ⟨slot, hhold⟩ | ⟨tried, hle, hcount, hrest⟩
  · refine ⟨fun start hwait => ?_, fun _ => ⟨slot, hhold⟩⟩
    cases hhold.symm.trans hwait
  · refine ⟨fun start hwait => ?_, fun hmany => ?_⟩
    · cases hrest.symm.trans hwait
    · omega

theorem served_of_run_two :
    ∃ slot, (runFrom (step (.readPool 2)) init
      [⟨0, .begin⟩, ⟨0, .advance⟩, ⟨1, .begin⟩, ⟨0, .advance⟩]).checkout 0 = .holding slot :=
  (@served_of_run init 0 0 2 (by decide) rfl
    [⟨0, .advance⟩, ⟨1, .begin⟩, ⟨0, .advance⟩]
    ⟨⟨Or.inl (by decide), fun _ => rfl⟩, ⟨Or.inr (by decide), fun ht => absurd ht (by decide)⟩,
      ⟨Or.inr (by decide), fun _ => rfl⟩, trivial⟩).2 (by decide)

/-! ## Panics -/

/-- A lock is poisoned by a step only if its holder panics. -/
theorem panics_of_step (hbefore : (s.locks k).poisoned = false)
    (hafter : ((s.step h ev).locks k).poisoned = true) :
    ev.action = .release true ∧ s.checkout ev.thread = .holding k := by
  have hdid := did_step h s ev
  generalize s.step h ev = s' at hafter hdid
  cases hdid with
  | nothing | skips _ _ _ _ _ | turns _ _ _ _ | fails _ _ _ _ =>
    exact absurd hafter (by simp [goes, hbefore])
  | begins _ =>
    rw [locks_begins, hbefore] at hafter
    cases hafter
  | finds _ _ _ _ _ | gets _ _ _ =>
    rw [locks_takes, Function.update_apply] at hafter
    split_ifs at hafter
    rw [hbefore] at hafter
    cases hafter
  | leaves k' panics haction hhold =>
    rw [locks_leaves, Function.update_apply] at hafter
    split_ifs at hafter with hk
    · subst hk
      obtain rfl : panics = true := by simpa [Lock.unlock, hbefore] using hafter
      exact ⟨haction, hhold⟩
    · rw [hbefore] at hafter
      cases hafter

/-- A poisoned lock stays poisoned. -/
theorem poisoned_step (h : Handle) (ev : HandleEvent) (hbefore : (s.locks k).poisoned = true) :
    ((s.step h ev).locks k).poisoned = true := by
  have hdid := did_step h s ev
  generalize s.step h ev = s' at hdid
  cases hdid with
  | nothing | skips _ _ _ _ _ | turns _ _ _ _ | fails _ _ _ _ => exact hbefore
  | begins _ => rwa [locks_begins]
  | finds _ _ _ _ hfree | gets _ _ hfree =>
    rw [locks_takes, Function.update_apply]
    split_ifs with hk
    · rw [← hk, Lock.Available, hbefore] at hfree
      cases hfree.2
    · exact hbefore
  | leaves k' panics _ _ =>
    rw [locks_leaves, Function.update_apply]
    split_ifs with hk
    · subst hk
      simp [Lock.unlock, hbefore]
    · exact hbefore

/-- A lock is poisoned in a run only if a holder of it panicked. -/
theorem panics_of_run : ∀ {events : List HandleEvent} {s : HandleState},
    (s.locks k).poisoned = false → ((runFrom (step h) s events).locks k).poisoned = true →
      ∃ before u after, events = before ++ ⟨u, .release true⟩ :: after ∧
        (runFrom (step h) s before).checkout u = .holding k
  | [], s, hbefore, hafter => by
    rw [runFrom_nil, hbefore] at hafter
    cases hafter
  | ev :: events, s, hbefore, hafter => by
    cases hstep : ((s.step h ev).locks k).poisoned with
    | true =>
      obtain ⟨haction, hhold⟩ := panics_of_step hbefore hstep
      obtain ⟨u, action⟩ := ev
      obtain rfl : action = .release true := haction
      exact ⟨[], u, events, rfl, hhold⟩
    | false =>
      obtain ⟨before, u, after, rfl, hhold⟩ := panics_of_run (s := s.step h ev) hstep hafter
      exact ⟨ev :: before, u, after, rfl, hhold⟩

/-- A call was refused only because some lock is poisoned. -/
def RefusedForPoison (h : Handle) (s : HandleState) : Prop :=
  s.refused ≠ [] → ∃ k < h.size, (s.locks k).poisoned = true

theorem RefusedForPoison.step (hs : Sound h s) (href : RefusedForPoison h s) (ev : HandleEvent) :
    RefusedForPoison h (s.step h ev) := by
  have hkeep : ∀ s' : HandleState, s' = s.step h ev → s'.refused = s.refused →
      RefusedForPoison h s' := fun s' hs' hsame hne => by
    rw [hsame] at hne
    obtain ⟨k, hk, hpoison⟩ := href hne
    exact ⟨k, hk, hs' ▸ poisoned_step h ev hpoison⟩
  have hdid := did_step h s ev
  generalize hs' : s.step h ev = s' at hdid
  cases hdid with
  | begins _ => exact hkeep _ hs'.symm (refused_begins _ _)
  | nothing | skips _ _ _ _ _ | turns _ _ _ _ | finds _ _ _ _ _ | gets _ _ _ | leaves _ _ _ _ =>
    exact hkeep _ hs'.symm rfl
  | fails start hwait _ hpoison =>
    have hwithin := hs.within ev.thread
    rw [hwait] at hwithin
    exact fun _ => ⟨start, hwithin, hpoison⟩

/-- A call is refused only after a thread panicked in an engine, and no thread holds that engine
again. -/
theorem refused_of_run (hopen : h.Opened) (events : List HandleEvent)
    (hrefused : (runFrom (step h) init events).refused ≠ []) :
    ∃ k < h.size, ∃ before u after, events = before ++ ⟨u, .release true⟩ :: after ∧
      (runFrom (step h) init before).checkout u = .holding k ∧
      ∀ more t, (runFrom (step h) init (events ++ more)).checkout t ≠ .holding k := by
  have hinv : Sound h (runFrom (step h) init events) ∧
      RefusedForPoison h (runFrom (step h) init events) :=
    runFrom_induction (I := fun s => Sound h s ∧ RefusedForPoison h s)
      (fun s ev hs => ⟨hs.1.did hopen (did_step h s ev), hs.2.step hs.1 ev⟩) events
      ⟨sound_init h, fun hne => absurd rfl hne⟩
  obtain ⟨k, hk, hpoison⟩ := hinv.2 hrefused
  obtain ⟨before, u, after, hevents, hhold⟩ := panics_of_run (s := init) rfl hpoison
  refine ⟨k, hk, before, u, after, hevents, hhold, fun more t ht => ?_⟩
  have hstill : ((runFrom (step h) init (events ++ more)).locks k).poisoned = true := by
    rw [runFrom_append]
    exact runFrom_induction (I := fun s : HandleState => (s.locks k).poisoned = true)
      (fun _ ev => poisoned_step h ev) more hpoison
  have hsound : Sound h (runFrom (step h) init (events ++ more)) :=
    Reached.sound hopen ⟨events ++ more, rfl⟩
  rw [hsound.lock_of_holding ht] at hstill
  cases hstill

theorem refused_of_run_panic :
    let events : List HandleEvent := [⟨0, .begin⟩, ⟨0, .advance⟩, ⟨0, .release true⟩, ⟨1, .begin⟩,
      ⟨1, .advance⟩]
    (runFrom (step .syncCacheEngine) init events).refused = [1] ∧
      ∃ k < 1, ∃ before u after, events = before ++ ⟨u, .release true⟩ :: after ∧
        (runFrom (step .syncCacheEngine) init before).checkout u = .holding k ∧
        ∀ more t, (runFrom (step .syncCacheEngine) init (events ++ more)).checkout t ≠ .holding k :=
  ⟨by decide, refused_of_run (h := .syncCacheEngine) (by decide) _ (by decide)⟩

/-! ## Tickets -/

/-- The checkouts started at the tickets, in order. -/
def Ticketed (size : ℕ) (s : HandleState) : Prop :=
  s.starts = (List.range s.starts.length).map (· % 2 ^ 64 % size) ∧
    s.next = s.starts.length % 2 ^ 64

theorem Ticketed.step {size : ℕ} (hs : Ticketed size s) (ev : HandleEvent) :
    Ticketed size (s.step (.readPool size) ev) := by
  have hdid := did_step (.readPool size) s ev
  generalize s.step (.readPool size) ev = s' at hdid
  cases hdid with
  | nothing | skips _ _ _ _ _ | turns _ _ _ _ | finds _ _ _ _ _ | gets _ _ _ | fails _ _ _ _
  | leaves _ _ _ _ => exact hs
  | begins _ =>
    obtain ⟨hstarts, hnext⟩ := hs
    refine ⟨?_, ?_⟩
    · simp only [begins, List.length_append, List.length_singleton, List.range_succ,
        List.map_append, List.map_singleton]
      rw [← hstarts, hnext]
    · simp only [begins, List.length_append, List.length_singleton]
      rw [hnext, Nat.mod_add_mod]

/-- Of as many checkouts in a row as a pool has engines, one starts at each engine, unless the
counter wraps meanwhile. -/
theorem starts_of_run {size : ℕ} (hs : Reached (.readPool size) s) (i : ℕ)
    (hlength : i + size ≤ s.starts.length) (hwrap : i % 2 ^ 64 + size ≤ 2 ^ 64) :
    ((s.starts.drop i).take size).Perm (List.range size) := by
  obtain ⟨events, rfl⟩ := hs
  obtain ⟨hstarts, -⟩ : Ticketed size (runFrom (step (.readPool size)) init events) :=
    runFrom_induction (fun _ ev hs => hs.step ev) events ⟨rfl, rfl⟩
  generalize runFrom (step (.readPool size)) init events = s at hstarts hlength
  have htickets : (s.starts.drop i).take size =
      (List.range' (i % 2 ^ 64) size).map (· % size) := by
    refine List.ext_getElem (by simp; omega) fun j hj hj' => ?_
    have hjsize : j < size := by simpa using hj'
    rw [List.getElem_take, List.getElem_drop, List.getElem_map, List.getElem_range',
      List.getElem_of_eq hstarts, List.getElem_map, List.getElem_range]
    congr 1
    omega
  have hround : Multiset.map (· % size) (List.range' (i % 2 ^ 64) size : Multiset ℕ) =
      Multiset.range size := by
    rw [← Nat.multiset_Ico_map_mod (i % 2 ^ 64) size, Multiset.Ico, Nat.Ico_eq_range',
      Nat.add_sub_cancel_left]
  rw [htickets]
  refine Multiset.coe_eq_coe.mp ?_
  rw [← Multiset.map_coe]
  exact hround

theorem starts_of_run_three :
    let s := runFrom (step (.readPool 2)) init threeThreads
    s.starts = [0, 1, 0] ∧ ((s.starts.drop 1).take 2).Perm (List.range 2) :=
  ⟨by decide, starts_of_run ⟨threeThreads, rfl⟩ 1 (by decide) (by decide)⟩

end HandleState

end LocalCache
