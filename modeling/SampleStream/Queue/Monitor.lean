import SampleStream.Queue.Bounded

/-!
# Queues shared between threads

Any number of threads send requests to one queue. Each request is served inside
a critical section, which is one step. A request that has to wait gives up the
queue and falls asleep in that same step. A change of the queue owes a wake-up
to those who wait for it; the wake-up is a later step of its own. A sleeper that
is woken looks at the queue again, and a timed one may also wake up because its
time is over.

`Monitor.move?` is the step relation, as a partial function of the move made;
`Monitor.run` is one fair schedule of it.
-/

namespace SampleStream

/-- What a sleeper waits for. -/
inductive Awaited where
  /-- The queue holds an element. -/
  | notEmpty
  /-- The queue has room. -/
  | notFull
deriving DecidableEq, Repr

/-- A wake-up that is due. -/
inductive WakeUp where
  /-- For one of the sleepers on a condition, if there is any. -/
  | one (c : Awaited)
  /-- For all sleepers on a condition. -/
  | all (c : Awaited)
deriving DecidableEq, Repr

namespace QueueRequest

variable {α : Type}

/-- What the request waits for, if it can wait at all. -/
def waitsFor : QueueRequest α → Option Awaited
  | push _ .never => none
  | push _ _ => some .notFull
  | pop .never => none
  | pop _ => some .notEmpty
  | pushEvicting _ | clear => none

/-- Whether the request waits for a limited time. -/
def hasDeadline : QueueRequest α → Bool
  | push _ .timed | pop .timed => true
  | _ => false

/-- The wake-up that is due after the request came to `outcome`. -/
def wakeUp (r : QueueRequest α) (outcome : QueueOutcome α) : Option WakeUp :=
  match r, outcome with
  | push _ _, .pushed true => some (.one .notEmpty)
  | pushEvicting _, _ => some (.one .notEmpty)
  | pop _, .popped (some _) => some (.one .notFull)
  | clear, _ => some (.all .notFull)
  | _, _ => none

end QueueRequest

/-- What a thread is at. -/
inductive Activity (α : Type) where
  /-- Between two requests. -/
  | idle
  /-- Asleep until the request can be tried again. -/
  | asleep (r : QueueRequest α)
  /-- Awake and about to try again, for the last time if its deadline is over. -/
  | awake (r : QueueRequest α) (lastTry : Bool)
  /-- Done with a request and about to wake others. -/
  | waking (w : WakeUp)
deriving DecidableEq, Repr

/-- A thread: its requests to come, what it is at, and what its requests came
to, oldest first. -/
structure Thread (α : Type) where
  requests : List (QueueRequest α)
  activity : Activity α := .idle
  outcomes : List (QueueOutcome α) := []

/-- A queue and the threads that share it. -/
structure Monitor (α : Type) where
  queue : BoundedQueue α
  threads : List (Thread α)

/-- A step of one thread. -/
inductive Move where
  /-- The thread takes up its next request, or tries again after sleep. -/
  | enter (thread : Nat)
  /-- The thread wakes the sleepers it owes a wake-up; of those, `sleeper` is the
  one that a wake-up for one reaches. -/
  | wake (thread : Nat) (sleeper : Option Nat)
  /-- The deadline of a sleeping thread is over. -/
  | expire (thread : Nat)
deriving DecidableEq, Repr

namespace Monitor

variable {α : Type}

/-! ## Steps -/

/-- The condition that a thread sleeps on. -/
def sleepsOn (t : Thread α) : Option Awaited :=
  match t.activity with
  | .asleep r => r.waitsFor
  | _ => none

/-- The thread, awake if it slept on `c`. -/
def rouse (c : Awaited) (t : Thread α) : Thread α :=
  match t.activity with
  | .asleep r => if r.waitsFor = some c then { t with activity := .awake r false } else t
  | _ => t

/-- The request that a thread is about to try, whether for the last time, and
the requests that stay to come. -/
def next (t : Thread α) : Option (QueueRequest α × Bool × List (QueueRequest α)) :=
  match t.activity, t.requests with
  | .idle, r :: rest => some (r, false, rest)
  | .awake r lastTry, rest => some (r, lastTry, rest)
  | _, _ => none

/-- The critical section of thread `i`. -/
def enter? (m : Monitor α) (i : Nat) : Option (Monitor α) := do
  let t ← m.threads[i]?
  let (r, lastTry, rest) ← next t
  match m.queue.attempt lastTry r with
  | none =>
    return { m with threads := m.threads.set i { t with requests := rest, activity := .asleep r } }
  | some (queue, outcome) =>
    let activity := match r.wakeUp outcome with
      | some w => .waking w
      | none => .idle
    let outcomes := t.outcomes ++ [outcome]
    return { queue, threads := m.threads.set i { requests := rest, activity, outcomes } }

/-- Thread `i` wakes those it owes a wake-up. A wake-up for one is lost only when
nobody sleeps on the condition. -/
def wake? (m : Monitor α) (i : Nat) (sleeper : Option Nat) : Option (Monitor α) := do
  let t ← m.threads[i]?
  match t.activity, sleeper with
  | .waking (.all c), _ =>
    return { m with threads := (m.threads.set i { t with activity := .idle }).map (rouse c) }
  | .waking (.one c), none =>
    if m.threads.all fun s => sleepsOn s ≠ some c then
      return { m with threads := m.threads.set i { t with activity := .idle } }
    else none
  | .waking (.one c), some j =>
    let s ← m.threads[j]?
    if sleepsOn s = some c then
      return { m with
        threads := (m.threads.set i { t with activity := .idle }).set j (rouse c s) }
    else none
  | _, _ => none

/-- The deadline of thread `i`, which sleeps, is over. -/
def expire? (m : Monitor α) (i : Nat) : Option (Monitor α) := do
  let t ← m.threads[i]?
  match t.activity with
  | .asleep r =>
    if r.hasDeadline then
      return { m with threads := m.threads.set i { t with activity := .awake r true } }
    else none
  | _ => none

/-- The state after a move, if the move can be made. -/
def move? (m : Monitor α) : Move → Option (Monitor α)
  | .enter i => m.enter? i
  | .wake i sleeper => m.wake? i sleeper
  | .expire i => m.expire? i

/-- The states that moves lead to. -/
inductive Reaches (m : Monitor α) : Monitor α → Prop where
  | refl : Reaches m m
  | step {m' m'' : Monitor α} (move : Move) (h : Reaches m m')
      (h' : m'.move? move = some m'') : Reaches m m''

/-! ## A schedule -/

/-- The first sleeper on the condition that thread `i` owes a wake-up for. -/
def firstSleeper (m : Monitor α) (i : Nat) : Option Nat :=
  match (m.threads[i]?).map Thread.activity with
  | some (.waking (.one c)) => m.threads.findIdx? fun s => decide (sleepsOn s = some c)
  | _ => none

/-- The moves that the schedule tries, those that wake others before those that
enter the queue. Deadlines are far away and never over. -/
def candidates (m : Monitor α) : List Move :=
  let all := List.range m.threads.length
  all.map (fun i => .wake i (m.firstSleeper i)) ++ all.map .enter

/-- Makes the first move that can be made, at most `steps` times. -/
def run : Nat → Monitor α → Monitor α
  | 0, m => m
  | steps + 1, m =>
    match m.candidates.findSome? m.move? with
    | some m => run steps m
    | none => m

end Monitor

/-! ## Handing elements over -/

/-- One thread pushes `xs` and another pops as many elements, each waiting for
the other as long as it has to. -/
def handOver {α : Type} (queue : BoundedQueue α) (patience : Patience) (xs : List α) :
    Monitor α :=
  let producer : Thread α := { requests := xs.map fun x => .push x patience }
  let consumer : Thread α := { requests := xs.map fun _ => .pop patience }
  -- a request sleeps at most once, and is entered, woken and answered once each
  Monitor.run (8 * (xs.length + 1)) { queue, threads := [producer, consumer] }

end SampleStream
