import SampleStream.Proofs.Queue.WakeUps

/-!
# What a queue has seen

Requests are served one after the other, and each service is noted with the queue on both
sides of it. A service conserves elements: what the queue held and the request inserted is
what the request removed and the queue holds afterwards (`lawful_of_request`). Along a
chain of services nothing is lost or overtaken, then, and the queue is what was inserted
without what was removed (`serve_accounted`).
-/

namespace SampleStream

variable {α : Type}

/-! ## Services -/

/-- A request that was served: the queue before it, what it came to, and the queue after
it. -/
structure Service (α : Type) where
  before : BoundedQueue α
  request : QueueRequest α
  outcome : QueueOutcome α
  after : BoundedQueue α

namespace Service

/-- The element that was inserted. An evicting push inserts its element in any case. -/
def inserted (s : Service α) : List α :=
  match s.request, s.outcome with
  | .push x _, .pushed true => [x]
  | .pushEvicting x, _ => [x]
  | _, _ => []

/-- Whether an element was evicted, as an evicting push reports. -/
def evicts (s : Service α) : Bool :=
  match s.request, s.outcome with
  | .pushEvicting _, .pushed false => true
  | _, _ => false

/-- The elements that were removed: the oldest one evicted, one popped, or all cleared. -/
def removed (s : Service α) : List α :=
  match s.request, s.outcome with
  | .pushEvicting _, .pushed false => s.before.items.take 1
  | .pop _, .popped x => x.toList
  | .clear, _ => s.before.items
  | _, _ => []

/-- What holds of every service. -/
structure Lawful (s : Service α) : Prop where
  conserved : s.before.items ++ s.inserted = s.removed ++ s.after.items
  capacity : s.after.capacity = s.before.capacity
  bounded : s.before.items.length ≤ s.before.capacity → s.after.items.length ≤ s.before.capacity
  evicted : s.after.evicted = s.before.evicted + s.evicts.toNat
  unchanged : ∀ x patience, s.request = .push x patience → s.outcome = .pushed false →
    s.after = s.before

/-! ## Chains of services -/

/-- Lawful services of which each starts from the queue that the one before it left. -/
inductive Chain : BoundedQueue α → List (Service α) → BoundedQueue α → Prop where
  | nil (q : BoundedQueue α) : Chain q [] q
  | cons {s : Service α} {services : List (Service α)} {last : BoundedQueue α}
    (lawful : s.Lawful) (rest : Chain s.after services last) : Chain s.before (s :: services) last

namespace Chain

variable {q last : BoundedQueue α} {services : List (Service α)}

theorem conserved (h : Chain q services last) :
    q.items ++ services.flatMap Service.inserted =
      services.flatMap Service.removed ++ last.items := by
  induction h with
  | nil q => simp
  | cons lawful rest ih =>
    rw [List.flatMap_cons, List.flatMap_cons, ← List.append_assoc, lawful.conserved,
      List.append_assoc, ih, List.append_assoc]

theorem capacity (h : Chain q services last) : last.capacity = q.capacity := by
  induction h with
  | nil q => rfl
  | cons lawful rest ih => rw [ih, lawful.capacity]

theorem evicted (h : Chain q services last) :
    last.evicted = q.evicted + services.countP Service.evicts := by
  induction h with
  | nil q => rfl
  | @cons s services last lawful rest ih =>
    rw [ih, lawful.evicted, List.countP_cons]
    cases s.evicts with
    | false => rfl
    | true => exact Nat.add_right_comm ..

/-- The bound holds before and after each service. -/
theorem bounded (h : Chain q services last) (hq : q.items.length ≤ q.capacity) :
    (∀ s ∈ services, s.before.items.length ≤ q.capacity ∧ s.after.items.length ≤ q.capacity) ∧
      last.items.length ≤ q.capacity := by
  induction h with
  | nil q => exact ⟨nofun, hq⟩
  | @cons s services last lawful rest ih =>
    have hafter := lawful.bounded hq
    obtain ⟨hservices, hlast⟩ := ih (by rwa [lawful.capacity])
    rw [lawful.capacity] at hservices hlast
    refine ⟨fun t ht => ?_, hlast⟩
    rcases List.mem_cons.mp ht with rfl | ht
    · exact ⟨hq, hafter⟩
    · exact hservices t ht

theorem lawful (h : Chain q services last) : ∀ s ∈ services, s.Lawful := by
  induction h with
  | nil q => exact nofun
  | cons lawful rest ih =>
    intro t ht
    rcases List.mem_cons.mp ht with rfl | ht
    · exact lawful
    · exact ih t ht

end Chain

end Service

namespace BoundedQueue

variable {q q' last : BoundedQueue α} {r : QueueRequest α} {outcome : QueueOutcome α}
  {requests : List (QueueRequest α)} {services : List (Service α)}

/-- A service conserves elements and keeps the bound, and a push that was refused did
nothing. -/
theorem lawful_of_request (h : q.request r = some (q', outcome)) :
    Service.Lawful ⟨q, r, outcome, q'⟩ := by
  cases attempt_some h with
  | pushed x patience hroom =>
    refine ⟨rfl, rfl, fun _ => ?_, rfl, nofun⟩
    rw [List.length_append]
    exact hroom
  | refused x hfull hgives =>
    refine ⟨?_, rfl, id, rfl, fun _ _ _ _ => rfl⟩
    exact List.append_nil _
  | appended x hroom =>
    refine ⟨rfl, rfl, fun _ => ?_, rfl, nofun⟩
    rw [List.length_append]
    exact hroom
  | evicted x hfull =>
    refine ⟨?_, rfl, fun hbound => ?_, rfl, nofun⟩
    · have hsplit : q.items = q.items.take 1 ++ q.items.tail := by
        rw [← List.drop_one, List.take_append_drop]
      calc q.items ++ [x] = (q.items.take 1 ++ q.items.tail) ++ [x] := by rw [← hsplit]
        _ = q.items.take 1 ++ (q.items.tail ++ [x]) := List.append_assoc ..
    · have hpos := q.capacity_pos
      change q.items.length ≤ q.capacity at hbound
      rw [List.length_append, List.length_tail, List.length_singleton]
      change q.items.length - 1 + 1 ≤ q.capacity
      omega
  | popped patience hitems =>
    refine ⟨?_, rfl, fun hbound => ?_, rfl, nofun⟩
    · rw [Service.inserted, Service.removed, List.append_nil, hitems]
      rfl
    · rw [hitems, List.length_cons] at hbound
      exact Nat.le_of_succ_le hbound
  | missed hempty hgives =>
    refine ⟨?_, rfl, id, rfl, nofun⟩
    exact List.append_nil _
  | cleared => exact ⟨rfl, rfl, fun _ => Nat.zero_le _, rfl, nofun⟩

/-- A request that is never answered: one that waits for as long as it takes, on a queue
that cannot serve it. -/
def Stuck (q : BoundedQueue α) (r : QueueRequest α) : Prop :=
  (∃ x, r = .push x .always ∧ q.capacity ≤ q.items.length) ∨
    (r = .pop .always ∧ q.items = [])

theorem request_eq_none_iff : q.request r = none ↔ q.Stuck r := by
  constructor
  · intro h
    obtain ⟨c, hwaits, hsupply⟩ := attempt_none h
    have hdeadline : ¬r.hasDeadline := fun hd => nomatch lastTry_of_attempt_none h hd
    cases r with
    | push x patience =>
      cases patience with
      | never => cases hwaits
      | timed => exact absurd rfl hdeadline
      | always =>
        cases hwaits
        exact .inl ⟨x, rfl, Nat.le_of_sub_eq_zero hsupply⟩
    | pop patience =>
      cases patience with
      | never => cases hwaits
      | timed => exact absurd rfl hdeadline
      | always =>
        cases hwaits
        exact .inr ⟨rfl, List.length_eq_zero_iff.mp hsupply⟩
    | pushEvicting x => cases hwaits
    | clear => cases hwaits
  · rintro (⟨x, rfl, hfull⟩ | ⟨rfl, hempty⟩)
    · rw [request, attempt, push?_eq_none.mpr hfull]
      rfl
    · rw [request, attempt, pop?, hempty]
      rfl

/-! ## Serving one request after the other -/

/-- The services of a queue that is asked for one thing after the other, and the queue they
leave. A request that is never answered is the last one that is made. -/
def serve : BoundedQueue α → List (QueueRequest α) → List (Service α) × BoundedQueue α
  | q, [] => ([], q)
  | q, r :: rest =>
    match q.request r with
    | some (next, outcome) =>
      (⟨q, r, outcome, next⟩ :: (next.serve rest).1, (next.serve rest).2)
    | none => ([], q)

theorem chain_serve (q : BoundedQueue α) (requests : List (QueueRequest α)) :
    Service.Chain q (q.serve requests).1 (q.serve requests).2 := by
  induction requests generalizing q with
  | nil => exact .nil q
  | cons r rest ih =>
    cases hr : q.request r with
    | none =>
      rw [serve, hr]
      exact .nil q
    | some answer =>
      obtain ⟨next, outcome⟩ := answer
      rw [serve, hr]
      exact .cons (lawful_of_request hr) (ih next)

/-- Requests are served up to the first that is never answered. -/
theorem serve_requests (q : BoundedQueue α) (requests : List (QueueRequest α)) :
    ∃ unserved, requests = (q.serve requests).1.map Service.request ++ unserved ∧
      ∀ r ∈ unserved.head?, (q.serve requests).2.Stuck r := by
  induction requests generalizing q with
  | nil => exact ⟨[], rfl, nofun⟩
  | cons r rest ih =>
    cases hr : q.request r with
    | none =>
      refine ⟨r :: rest, ?_, ?_⟩
      · rw [serve, hr]
        rfl
      · rintro r' hr'
        cases hr'
        rw [serve, hr]
        exact request_eq_none_iff.mp hr
    | some answer =>
      obtain ⟨next, outcome⟩ := answer
      obtain ⟨unserved, hrest, hstuck⟩ := ih next
      refine ⟨unserved, ?_, ?_⟩
      · rw [serve, hr]
        exact congrArg (r :: ·) hrest
      · rw [serve, hr]
        exact hstuck

@[simp] theorem capacity_pushEvicting (q : BoundedQueue α) (x : α) :
    (q.pushEvicting x).capacity = q.capacity := by
  rw [pushEvicting]
  split <;> rfl

/-- Evicting pushes alone keep the newest elements that fit. -/
theorem serve_pushEvicting (xs : List α) (hq : q.items.length ≤ q.capacity) :
    (q.serve (xs.map .pushEvicting)).2.items =
      (q.items ++ xs).drop (q.items.length + xs.length - q.capacity) := by
  induction xs generalizing q with
  | nil =>
    have hnone : q.items.length + 0 - q.capacity = 0 := by omega
    rw [List.map_nil, serve, List.length_nil, hnone, List.drop_zero, List.append_nil]
  | cons x xs ih =>
    have hserve : q.serve ((x :: xs).map .pushEvicting) =
        (⟨q, .pushEvicting x, .pushed (!q.isFull), q.pushEvicting x⟩ ::
          ((q.pushEvicting x).serve (xs.map .pushEvicting)).1,
          ((q.pushEvicting x).serve (xs.map .pushEvicting)).2) := rfl
    have hnext := ih (q := q.pushEvicting x) (by simpa using length_pushEvicting_le hq)
    -- the elements that the first push leaves are those behind the one it evicts, if any
    obtain ⟨gone, hgone⟩ : ∃ gone, gone = q.items.length + 1 - q.capacity := ⟨_, rfl⟩
    have hpos := q.capacity_pos
    have hitems : (q.pushEvicting x).items ++ xs = (q.items ++ x :: xs).drop gone := by
      rw [items_pushEvicting x hq, ← hgone, List.drop_append_of_le_length (by omega),
        List.append_assoc, List.singleton_append]
    have hlength : (q.pushEvicting x).items.length = q.items.length - gone + 1 := by
      rw [items_pushEvicting x hq, ← hgone, List.length_append, List.length_drop,
        List.length_singleton]
    rw [hserve, hnext, hitems, hlength, capacity_pushEvicting, List.drop_drop, List.length_cons]
    congr 1
    omega

/-! ## The law -/

/-- An empty queue from which nothing was evicted yet. -/
def fresh {capacity : Nat} (hpos : 0 < capacity) : BoundedQueue α :=
  { capacity, capacity_pos := hpos }

/-- What holds of a queue that started empty, was asked for `requests`, did `services` and
is now `last`. -/
structure Accounted (capacity : Nat) (requests : List (QueueRequest α))
    (services : List (Service α)) (last : BoundedQueue α) : Prop where
  /-- Nothing is lost, made up or overtaken. -/
  conserved : services.flatMap Service.inserted =
    services.flatMap Service.removed ++ last.items
  /-- The bound holds all the time. -/
  bounded : (∀ s ∈ services, s.before.items.length ≤ capacity ∧ s.after.items.length ≤ capacity) ∧
    last.items.length ≤ capacity
  /-- A push that was refused changed nothing. -/
  unchanged : ∀ s ∈ services, ∀ x patience, s.request = .push x patience →
    s.outcome = .pushed false → s.after = s.before
  /-- The evictions that were counted are those that were reported. -/
  evicted : last.evicted = services.countP Service.evicts
  /-- If all requests are evicting pushes, the newest elements are there. -/
  newest : ∀ xs : List α, requests = xs.map .pushEvicting →
    last.items = xs.drop (xs.length - min capacity xs.length)
  /-- Requests are served in their order, up to one that is never answered. -/
  served : ∃ unserved, requests = services.map Service.request ++ unserved ∧
    ∀ r ∈ unserved.head?, last.Stuck r

/-- Whatever a queue is asked for, one request after the other: what was inserted is what
was removed, in order, followed by what the queue holds. -/
theorem serve_accounted {capacity : Nat} (hpos : 0 < capacity)
    (requests : List (QueueRequest α)) :
    Accounted capacity requests ((fresh hpos).serve requests).1
      ((fresh hpos).serve requests).2 := by
  have hchain := chain_serve (fresh hpos) requests
  have hempty : (fresh hpos : BoundedQueue α).items.length ≤ capacity := Nat.zero_le _
  refine ⟨hchain.conserved, hchain.bounded hempty, ?_, ?_, ?_, serve_requests _ requests⟩
  · intro s hs
    exact (hchain.lawful s hs).unchanged
  · rw [hchain.evicted]
    exact Nat.zero_add _
  · rintro xs rfl
    have hkept : xs.length - min capacity xs.length = 0 + xs.length - capacity := by omega
    rw [serve_pushEvicting xs hempty, hkept]
    rfl

/-- Requests of every kind, the last of which is never answered. -/
def everyKind : List (QueueRequest Nat) :=
  [.push 1 .never, .pushEvicting 2, .pushEvicting 3, .push 4 .timed, .push 5 .never, .pop .always,
    .clear, .pop .never, .pushEvicting 6, .push 7 .always, .push 8 .always]

theorem serve_accounted_everyKind :
    let served := (fresh Nat.two_pos).serve everyKind
    Accounted 2 everyKind served.1 served.2 ∧
      served.1.flatMap Service.inserted = [1, 2, 3, 6, 7] ∧
      served.1.flatMap Service.removed = [1, 2, 3] ∧ served.2.items = [6, 7] ∧
      served.2.evicted = 1 :=
  ⟨serve_accounted Nat.two_pos everyKind, rfl, rfl, rfl, rfl⟩

end BoundedQueue
end SampleStream
