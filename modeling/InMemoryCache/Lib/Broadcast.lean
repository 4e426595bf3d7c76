-- SUMMARY: A broadcast channel, whose receivers are positions in what was sent.
import Mathlib.Data.List.Basic
import Mathlib.Order.Lattice

/-!
# Broadcast channels

Everything that is sent goes to every receiver there is. A receiver takes one message after the
other, from those sent since it subscribed. The channel holds no more messages than its
capacity, so that a receiver which is further behind skips to the oldest it holds. To a
receiver the channel is then a queue (`waiting`) that loses its front when it is full.
-/

namespace Lib

/-- A channel, by what was sent and how many receivers there are. -/
structure Broadcast (α : Type) where
  sent : List α
  receivers : Nat

/-- What a receiver is told. -/
inductive Received (α : Type) where
  | message (a : α)
  | lagged
  | empty

/-- What is left of a queue that may hold `capacity` messages, with one more. -/
def enqueue {α : Type} (capacity : Nat) (queue : List α) (a : α) : List α :=
  (queue ++ [a]).drop (queue.length + 1 - capacity)

namespace Broadcast

variable {α : Type}

def new : Broadcast α where
  sent := []
  receivers := 0

/-- A new receiver, which is to take what comes next. -/
def subscribe (b : Broadcast α) : Nat × Broadcast α :=
  (b.sent.length, { b with receivers := b.receivers + 1 })

/-- A receiver goes. -/
def drop (b : Broadcast α) : Broadcast α := { b with receivers := b.receivers - 1 }

/-- With no receiver a message goes nowhere. -/
def send (b : Broadcast α) (a : α) : Broadcast α :=
  if b.receivers = 0 then b else { b with sent := b.sent ++ [a] }

/-- The position of the oldest message held. -/
def oldest (capacity : Nat) (b : Broadcast α) : Nat := b.sent.length - capacity

/-- What the receiver at a position gets, and where it is then. -/
def recv (capacity : Nat) (b : Broadcast α) (cursor : Nat) : Received α × Nat :=
  if cursor < b.oldest capacity then (.lagged, b.oldest capacity)
  else
    match b.sent[cursor]? with
    | some a => (.message a, cursor + 1)
    | none => (.empty, cursor)

/-- What the receiver at a position has yet to take. -/
def waiting (capacity : Nat) (b : Broadcast α) (cursor : Nat) : List α :=
  b.sent.drop (max cursor (b.oldest capacity))

section Receivers

variable {capacity cursor : Nat} {b : Broadcast α} {a : α}

theorem sent_send (h : b.receivers ≠ 0) : (b.send a).sent = b.sent ++ [a] := by
  rw [send, if_neg h]

theorem receivers_send : (b.send a).receivers = b.receivers := by
  rw [send]
  split <;> rfl

theorem waiting_of_sent_eq {b' : Broadcast α} (h : b'.sent = b.sent) :
    b'.waiting capacity cursor = b.waiting capacity cursor := by
  rw [waiting, waiting, oldest, oldest, h]

theorem waiting_subscribe : (b.subscribe).2.waiting capacity (b.subscribe).1 = [] := by
  rw [subscribe, waiting, List.drop_eq_nil_of_le (le_max_left _ _)]

/-- Sending puts the message into every receiver's queue. -/
theorem waiting_send (h : b.receivers ≠ 0) (hcursor : cursor ≤ b.sent.length) :
    (b.send a).waiting capacity cursor = enqueue capacity (b.waiting capacity cursor) a := by
  have hmax : max cursor (b.oldest capacity) ≤ b.sent.length := by
    rw [oldest]
    omega
  have hposition : max cursor (b.sent.length + 1 - capacity) =
      max cursor (b.oldest capacity) +
        ((b.waiting capacity cursor).length + 1 - capacity) := by
    rw [waiting, List.length_drop]
    rw [oldest] at hmax ⊢
    omega
  have hlength : (b.send a).oldest capacity = b.sent.length + 1 - capacity := by
    rw [oldest, sent_send h, List.length_append]
    rfl
  rw [waiting, sent_send h, hlength, hposition, ← List.drop_drop,
    List.drop_append_of_le_length hmax, enqueue, waiting]

theorem recv_message {cursor' : Nat} (h : b.recv capacity cursor = (.message a, cursor')) :
    b.waiting capacity cursor = a :: b.waiting capacity cursor' ∧ cursor' ≤ b.sent.length := by
  rw [recv] at h
  split at h
  · cases h
  · rename_i hcursor
    split at h
    · rename_i hget
      cases h
      obtain ⟨hlt, hget⟩ := List.getElem?_eq_some_iff.mp hget
      have hmax : max cursor (b.oldest capacity) = cursor := max_eq_left (not_lt.mp hcursor)
      have hsucc : max (cursor + 1) (b.oldest capacity) = cursor + 1 :=
        max_eq_left ((not_lt.mp hcursor).trans (Nat.le_succ _))
      rw [waiting, waiting, hmax, hsucc, List.drop_eq_getElem_cons hlt, hget]
      exact ⟨rfl, hlt⟩
    · cases h

/-- Being told of its lag costs a receiver nothing more. -/
theorem recv_lagged {cursor' : Nat} (h : b.recv capacity cursor = (.lagged, cursor')) :
    b.waiting capacity cursor' = b.waiting capacity cursor ∧ cursor' ≤ b.sent.length := by
  rw [recv] at h
  split at h
  · rename_i hcursor
    cases h
    rw [waiting, waiting, max_self, max_eq_right hcursor.le]
    exact ⟨rfl, Nat.sub_le _ _⟩
  · split at h <;> cases h

end Receivers

end Broadcast

end Lib
