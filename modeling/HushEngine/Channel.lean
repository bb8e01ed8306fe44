import Mathlib.Data.List.Basic
import Mathlib.Tactic.SplitIfs

/-!
A bounded channel as its senders see it. A sender never waits: its message is
refused when the channel is closed and, failing that, when every place is
taken. Either way the channel is left as it was.
-/
namespace HushEngine

inductive TrySendError (α : Type*)
  | full (a : α)
  | closed (a : α)

/-- `queued` has the oldest message first. -/
structure Channel (α : Type*) where
  capacity : Nat
  queued : List α
  closed : Bool
  queued_le : queued.length ≤ capacity

namespace Channel

variable {α : Type*}

def free (c : Channel α) : Nat := c.capacity - c.queued.length

/-- A channel that is closed says so even when it is full. -/
def trySend (c : Channel α) (a : α) : Except (TrySendError α) (Channel α) :=
  if c.closed then .error (.closed a)
  else if h : c.queued.length < c.capacity then
    .ok ⟨c.capacity, c.queued ++ [a], c.closed, by rw [List.length_append]; exact h⟩
  else .error (.full a)

theorem trySend_of_closed {c : Channel α} (h : c.closed = true) (a : α) :
    c.trySend a = .error (.closed a) := if_pos h

theorem trySend_of_full {c : Channel α} (hopen : c.closed = false) (hfree : c.free = 0) (a : α) :
    c.trySend a = .error (.full a) := by
  unfold free at hfree
  unfold trySend
  rw [hopen, if_neg Bool.false_ne_true, dif_neg (by omega)]

/-- A message that is taken stands last and takes one of the free places. -/
theorem trySend_of_free {c : Channel α} (hopen : c.closed = false) (hfree : 0 < c.free) (a : α) :
    ∃ c', c.trySend a = .ok c' ∧ c'.queued = c.queued ++ [a] ∧ c'.free + 1 = c.free ∧
      c'.closed = false := by
  unfold free at hfree ⊢
  have hlt : c.queued.length < c.capacity := by omega
  unfold trySend
  rw [if_neg (by rw [hopen]; exact Bool.false_ne_true), dif_pos hlt]
  refine ⟨_, rfl, rfl, ?_, hopen⟩
  change c.capacity - (c.queued ++ [a]).length + 1 = _
  rw [List.length_append, List.length_singleton]
  omega

theorem trySend_capacity {c c' : Channel α} {a : α} (h : c.trySend a = .ok c') :
    c'.capacity = c.capacity := by
  unfold trySend at h
  split_ifs at h
  cases h
  rfl

/-- What the receiver takes is the oldest message. -/
def recv (c : Channel α) : Option (α × Channel α) :=
  match h : c.queued with
  | [] => none
  | a :: rest => some (a, ⟨c.capacity, rest, c.closed, by
      have hle := c.queued_le
      rw [h, List.length_cons] at hle
      omega⟩)

theorem recv_of_cons {c : Channel α} {a : α} {rest : List α} (h : c.queued = a :: rest) :
    ∃ c', c.recv = some (a, c') := by
  unfold recv
  split
  · next hempty =>
    rw [h] at hempty
    cases hempty
  · next a' rest' hcons =>
    rw [h] at hcons
    cases hcons
    exact ⟨_, rfl⟩

theorem recv_eq_some {c c' : Channel α} {a : α} (h : c.recv = some (a, c')) :
    c.queued = a :: c'.queued ∧ c'.closed = c.closed ∧ c'.capacity = c.capacity := by
  unfold recv at h
  split at h
  · cases h
  · next hqueued =>
    cases h
    exact ⟨hqueued, rfl, rfl⟩

end Channel

end HushEngine
