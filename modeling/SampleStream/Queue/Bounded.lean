import SampleStream.Checked

/-!
# Bounded queues

A queue of bounded length, first in first out. What a request does when it
cannot be served at once is the requester's choice: give up, wait, or wait for
a limited time; a push may also make room by evicting the oldest element, so
that it never waits. `BoundedQueue.attempt` is the one place that says what a
request does to the queue. Waiting itself is not seen here: a request that has
to wait leaves the queue alone.
-/

namespace SampleStream

/-- A queue of at most `capacity` elements, oldest first, and the number of
elements that were evicted from it. -/
structure BoundedQueue (α : Type) where
  capacity : Nat
  items : List α := []
  evicted : Nat := 0
  capacity_pos : 0 < capacity

/-- How long a request waits for its turn. -/
inductive Patience where
  /-- Not at all. -/
  | never
  /-- As long as it takes. -/
  | always
  /-- Until a deadline. -/
  | timed
deriving DecidableEq, Repr

/-- What can be asked of a queue. -/
inductive QueueRequest (α : Type) where
  /-- Append an element when there is room. -/
  | push (x : α) (patience : Patience)
  /-- Append an element and evict the oldest one when there is no room. -/
  | pushEvicting (x : α)
  /-- Take the oldest element when there is one. -/
  | pop (patience : Patience)
  /-- Take all elements away. -/
  | clear
deriving DecidableEq, Repr

/-- What a request came to. -/
inductive QueueOutcome (α : Type) where
  /-- Whether the element was appended and none was lost for it. -/
  | pushed (kept : Bool)
  /-- The element taken, if any. -/
  | popped (x : Option α)
  | cleared
deriving DecidableEq, Repr

namespace BoundedQueue

variable {α : Type}

/-! ## Making queues -/

/-- The bytes that a queue sets aside for an element. -/
def elementBytes : Nat := 64

/-- An empty queue. A queue without capacity has no use and is refused, one
beyond all storage cannot be made. -/
def create (capacity : Nat) : Checked (BoundedQueue α) :=
  if h : 0 < capacity then
    (fitStorage (elementBytes * capacity)).map fun _ => { capacity, capacity_pos := h }
  else none

/-! ## Observing queues -/

/-- The number of elements. -/
def length (q : BoundedQueue α) : Nat := q.items.length

/-- Whether no more elements fit. -/
def isFull (q : BoundedQueue α) : Bool := decide (q.capacity ≤ q.items.length)

/-! ## Single changes -/

/-- The queue with an element appended, if there is room. -/
def push? (q : BoundedQueue α) (x : α) : Option (BoundedQueue α) :=
  if q.isFull then none else some { q with items := q.items ++ [x] }

/-- The queue with an element appended; the oldest one is evicted when there is
no room. -/
def pushEvicting (q : BoundedQueue α) (x : α) : BoundedQueue α :=
  if q.isFull then
    { q with items := q.items.tail ++ [x], evicted := q.evicted + 1 }
  else { q with items := q.items ++ [x] }

/-- The oldest element and the queue without it. -/
def pop? (q : BoundedQueue α) : Option (α × BoundedQueue α) :=
  match q.items with
  | [] => none
  | x :: rest => some (x, { q with items := rest })

/-- The queue without elements. -/
def clear (q : BoundedQueue α) : BoundedQueue α := { q with items := [] }

/-! ## Requests -/

/-- Whether a request that cannot be served now gives up rather than waits.
At the last try, which follows the deadline, a timed request gives up too. -/
def Patience.givesUp (lastTry : Bool) : Patience → Bool
  | .never => true
  | .always => false
  | .timed => lastTry

/-- Serves a request, or yields `none` when it has to wait. -/
def attempt (q : BoundedQueue α) (lastTry : Bool) :
    QueueRequest α → Option (BoundedQueue α × QueueOutcome α)
  | .push x patience =>
    match q.push? x with
    | some q => some (q, .pushed true)
    | none => if Patience.givesUp lastTry patience then some (q, .pushed false) else none
  | .pushEvicting x => some (q.pushEvicting x, .pushed (!q.isFull))
  | .pop patience =>
    match q.pop? with
    | some (x, q) => some (q, .popped (some x))
    | none => if Patience.givesUp lastTry patience then some (q, .popped none) else none
  | .clear => some (q.clear, .cleared)

/-- Serves a request on a queue that nobody else changes, so that waiting ends
only with the deadline. A request that would wait for ever has no answer. -/
def request (q : BoundedQueue α) (r : QueueRequest α) :
    Option (BoundedQueue α × QueueOutcome α) := q.attempt true r

/-! ## Lemmas -/

theorem push?_eq_none {q : BoundedQueue α} {x : α} :
    q.push? x = none ↔ q.capacity ≤ q.items.length := by
  simp [push?, isFull]

@[simp] theorem items_clear (q : BoundedQueue α) : q.clear.items = [] := rfl

theorem items_of_push? {q q' : BoundedQueue α} {x : α} (h : q.push? x = some q') :
    q'.items = q.items ++ [x] := by
  unfold push? at h
  split at h
  · cases h
  · cases h
    rfl

/-- An evicting push keeps the newest elements that fit. -/
theorem items_pushEvicting {q : BoundedQueue α} (x : α)
    (h : q.items.length ≤ q.capacity) :
    (q.pushEvicting x).items =
      q.items.drop (q.items.length + 1 - q.capacity) ++ [x] := by
  by_cases hfull : q.capacity ≤ q.items.length
  · have hdrop : q.items.length + 1 - q.capacity = 1 := by omega
    simp [pushEvicting, isFull, hfull, hdrop]
  · have hdrop : q.items.length + 1 - q.capacity = 0 := by omega
    simp [pushEvicting, isFull, hfull, hdrop]

theorem length_pushEvicting_le {q : BoundedQueue α} {x : α}
    (h : q.items.length ≤ q.capacity) :
    (q.pushEvicting x).items.length ≤ q.capacity := by
  have hpos := q.capacity_pos
  rw [items_pushEvicting x h]
  simp only [List.length_append, List.length_drop, List.length_singleton]
  omega

theorem items_of_pop? {q q' : BoundedQueue α} {x : α} (h : q.pop? = some (x, q')) :
    q.items = x :: q'.items := by
  unfold pop? at h
  split at h
  · cases h
  · rename_i hitems
    cases h
    exact hitems

end BoundedQueue
end SampleStream
