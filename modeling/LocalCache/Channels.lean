import Mathlib.Data.List.Basic
import Mathlib.Tactic.Common

/-!
# Bounded channels

A `Channel` holds the messages sent and not yet received. A message offered to a full one is lost.
`offers` and `received` are history variables : every message offered, with whether it was sent,
and the messages received, in order.

What was received and what is held are what was sent, in order, and never more messages are held
than the capacity (`Channel.Sound`); every message offered was sent or lost (`length_offers`).
-/

namespace LocalCache

structure Channel (α : Type) where
  queue : List α
  offers : List (α × Bool)
  received : List α

namespace Channel

variable {α : Type}

/-- A new channel. -/
def new : Channel α := ⟨[], [], []⟩

/-- There is room for one more message. -/
def HasRoom (capacity : ℕ) (c : Channel α) : Prop := c.queue.length < capacity

instance (capacity : ℕ) (c : Channel α) : Decidable (c.HasRoom capacity) :=
  inferInstanceAs (Decidable (_ < _))

/-- Send a message if there is room, without waiting. -/
def trySend (capacity : ℕ) (c : Channel α) (a : α) : Channel α :=
  if c.HasRoom capacity then { c with queue := c.queue ++ [a], offers := c.offers ++ [(a, true)] }
  else { c with offers := c.offers ++ [(a, false)] }

/-- Receive the oldest message held, if there is one. -/
def recv (c : Channel α) : Channel α :=
  match c.queue with
  | [] => c
  | a :: queue => { c with queue := queue, received := c.received ++ [a] }

/-- The messages offered, in order. -/
def offered (c : Channel α) : List α := c.offers.map Prod.fst

/-- The messages sent, in order. -/
def sent (c : Channel α) : List α := (c.offers.filter Prod.snd).map Prod.fst

/-- The number of messages lost. -/
def lost (c : Channel α) : ℕ := c.offers.countP fun offer => !offer.2

/-- What was received and what is held is what was sent, in order, and the capacity is kept. -/
structure Sound (capacity : ℕ) (c : Channel α) : Prop where
  fifo : c.received ++ c.queue = c.sent
  bounded : c.queue.length ≤ capacity

variable {capacity : ℕ} {c : Channel α}

theorem sound_new : Sound capacity (new : Channel α) := ⟨rfl, Nat.zero_le _⟩

theorem Sound.trySend (h : Sound capacity c) (a : α) : Sound capacity (c.trySend capacity a) := by
  unfold Channel.trySend
  split_ifs with hroom
  · refine ⟨?_, ?_⟩
    · have hfifo := h.fifo
      simp only [sent, List.filter_append, List.map_append] at hfifo ⊢
      rw [← List.append_assoc, hfifo]
      rfl
    · rw [List.length_append]
      exact hroom
  · refine ⟨?_, h.bounded⟩
    have hfifo := h.fifo
    simp only [sent, List.filter_append, List.map_append] at hfifo ⊢
    rw [hfifo]
    simp

theorem Sound.recv (h : Sound capacity c) : Sound capacity c.recv := by
  unfold Channel.recv
  split
  · exact h
  · next a queue hqueue =>
    have hfifo := h.fifo
    have hbounded := h.bounded
    rw [hqueue] at hfifo hbounded
    refine ⟨?_, ?_⟩
    · rw [List.append_assoc]
      exact hfifo
    · rw [List.length_cons] at hbounded
      exact Nat.le_of_succ_le hbounded

/-- Every message offered was sent or lost. -/
theorem length_offers (c : Channel α) : c.offered.length = c.sent.length + c.lost := by
  have hsplit := List.length_eq_countP_add_countP (Prod.snd : α × Bool → Bool) (l := c.offers)
  rw [offered, sent, lost, List.length_map, List.length_map, ← List.countP_eq_length_filter]
  simpa using hsplit

@[simp] theorem offered_trySend (a : α) : (c.trySend capacity a).offered = c.offered ++ [a] := by
  unfold trySend
  split_ifs <;> simp [offered]

@[simp] theorem offers_recv : c.recv.offers = c.offers := by
  unfold recv
  split <;> rfl

theorem lost_trySend (a : α) :
    (c.trySend capacity a).lost = if c.HasRoom capacity then c.lost else c.lost + 1 := by
  unfold trySend
  split_ifs <;> simp [lost]

end Channel

end LocalCache
