import TemporalStore.Event.Basic

/-!
This module contains the subscriptions of a directory and the delivery of events to them. Every
subscriber has a bounded buffer. Delivery never waits: who has no room left for an event loses
the subscription, and keeps what is buffered.
-/

namespace TemporalStore

def defaultBufferSize : Nat := 1000

structure Subscription where
  id : Nat
  capacity : Nat
  filter : EventFilter
  /-- Whether further events are delivered. -/
  active : Bool := true
  /-- Whether there is still someone to read the buffer. -/
  attended : Bool := true
  /-- The events delivered and not yet read, oldest first. -/
  buffer : List Event := []
  deriving DecidableEq, Inhabited

namespace Subscription

def accepts (s : Subscription) : Bool := s.attended && s.buffer.length < s.capacity

def push (s : Subscription) (event : Event) : Subscription :=
  { s with buffer := s.buffer ++ [event] }

/--
Ends the subscription. The last event says why, if there is room for it.
-/
def finish (reason : DropReason) (s : Subscription) : Subscription :=
  let s := if s.accepts then s.push (.dropped reason) else s
  { s with active := false }

/--
Delivers an event, if it is wanted. A subscription that does not accept it ends.
-/
def deliver (event : Event) (s : Subscription) : Subscription :=
  if s.active && s.filter.wants event then
    if s.accepts then s.push event else s.finish .bufferOverflow
  else
    s

/--
Ends the subscription at the subscriber's own wish.
-/
def cancel (s : Subscription) : Subscription := if s.active then s.finish .unsubscribed else s

/--
Takes the oldest event out of the buffer.
-/
def receive (s : Subscription) : Option Event × Subscription :=
  (s.buffer.head?, { s with buffer := s.buffer.tail })

def drain (s : Subscription) : List Event × Subscription :=
  (s.buffer, { s with buffer := [] })

def abandon (s : Subscription) : Subscription := { s with attended := false, buffer := [] }

/--
Who did not accept an event has no room for the notice either.
-/
theorem finish_of_refuses {s : Subscription} (reason : DropReason) (refuses : s.accepts = false) :
    s.finish reason = { s with active := false } := by
  unfold finish
  simp [refuses]

theorem length_buffer_deliver_le {s : Subscription} {event : Event}
    (h : s.buffer.length ≤ s.capacity) : (s.deliver event).buffer.length ≤ s.capacity := by
  unfold deliver
  split
  · split
    · rename_i room
      simp only [accepts, Bool.and_eq_true, decide_eq_true_eq] at room
      simp only [push, List.length_append, List.length_singleton]
      omega
    · rename_i full
      rw [finish_of_refuses _ (by simpa using full)]
      exact h
  · exact h

end Subscription

/--
All subscriptions, in the order in which they were made.
-/
structure Broadcaster where
  subscriptions : List Subscription := []
  nextId : Nat := 1
  deriving DecidableEq, Inhabited

namespace Broadcaster

def subscribe (b : Broadcaster) (bufferSize : Nat) (filter : EventFilter) : Nat × Broadcaster :=
  let s : Subscription := { id := b.nextId, capacity := max bufferSize 1, filter }
  (b.nextId, { subscriptions := b.subscriptions ++ [s], nextId := b.nextId + 1 })

def subscription? (b : Broadcaster) (id : Nat) : Option Subscription :=
  b.subscriptions.find? (·.id = id)

def modify (b : Broadcaster) (id : Nat) (f : Subscription → Subscription) : Broadcaster :=
  { b with subscriptions := b.subscriptions.map fun s => if s.id = id then f s else s }

def unsubscribe (b : Broadcaster) (id : Nat) : Broadcaster := b.modify id Subscription.cancel

def broadcast (b : Broadcaster) (event : Event) : Broadcaster :=
  { b with subscriptions := b.subscriptions.map (Subscription.deliver event) }

/--
Ends every subscription; what is buffered can still be read.
-/
def close (b : Broadcaster) : Broadcaster :=
  { b with subscriptions := b.subscriptions.map fun s => { s with active := false } }

end Broadcaster

end TemporalStore
