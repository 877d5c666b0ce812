import Mathlib.Algebra.Order.BigOperators.Group.List
import SampleStream.Proofs.Queue.WakeUps

/-!
# Handing elements over

However the threads of a queue take turns, they come to rest: every move uses up some
of the effort that their requests can cost (`Moved.effort_lt`). A producer and a
consumer that wait for one another come to rest with every element handed over in
order. What was popped, what is queued and what is still to be pushed remain the list
of all elements (`HandsOver`), and whoever still slept would sleep for nothing.
-/

namespace SampleStream

variable {α : Type}

/-! ## Threads that hand over -/

namespace Thread

/-- A thread that pushes `xs`. -/
def producer (patience : Patience) (xs : List α) : Thread α :=
  { requests := xs.map fun x => .push x patience }

/-- A thread that pops as many elements as `xs` has. -/
def consumer (patience : Patience) (xs : List α) : Thread α :=
  { requests := xs.map fun _ => .pop patience }

/-- The requests that a thread has not had an answer to. -/
def pending (t : Thread α) : List (QueueRequest α) :=
  match t.activity with
  | .asleep r | .awake r _ => r :: t.requests
  | .idle | .waking _ => t.requests

/-- What a thread has still to do and what came of the rest. -/
def work (t : Thread α) : List (QueueRequest α) × List (QueueOutcome α) :=
  (t.pending, t.outcomes)

end Thread

namespace Monitor

variable {m m' : Monitor α}

/-! ## Threads come to rest -/

/-- The effort that a request can cost from the time it is taken up: to sleep, to be
tried again, to give up waiting and to wake others, among `n` threads. -/
def cost (n : Nat) : QueueRequest α → Nat
  | .clear => n + 3
  | r => if r.hasDeadline then 5 else 3

/-- The effort that what a thread is at can cost. Waking others pays for what they do
once more because of it. -/
def toil (n : Nat) : Activity α → Nat
  | .idle => 0
  | .waking (.one _) => 2
  | .waking (.all _) => n + 2
  | .asleep r => cost n r - 1
  | .awake r lastTry => if lastTry && r.hasDeadline then 3 else cost n r

/-- The effort that a thread can cost. -/
def exertion (n : Nat) (t : Thread α) : Nat := toil n t.activity + (t.requests.map (cost n)).sum

/-- The effort that all threads can cost. -/
def effort (m : Monitor α) : Nat := (m.threads.map (exertion m.threads.length)).sum

section
variable {n : Nat} {r : QueueRequest α} {t : Thread α}

theorem cost_pos (r : QueueRequest α) : 3 ≤ cost n r := by
  unfold cost
  split
  · omega
  · split <;> omega

/-- A thread that enters has the effort for its request to spend, and after a deadline
at least the effort to wake one. -/
theorem exertion_of_next {lastTry : Bool} {rest : List (QueueRequest α)}
    (h : next t = some (r, lastTry, rest)) :
    (if lastTry && r.hasDeadline then 3 else cost n r) + (rest.map (cost n)).sum =
      exertion n t := by
  unfold next at h
  split at h
  · rename_i hidle hrequests
    cases h
    simp [exertion, toil, hidle, hrequests]
  · rename_i hawake
    cases h
    simp [exertion, toil, hawake]
  · cases h

theorem toil_afterwards_lt {q q' : BoundedQueue α} {lastTry : Bool} {outcome : QueueOutcome α}
    (h : q.Served lastTry r q' outcome) :
    toil n (afterwards (r.wakeUp outcome) : Activity α) <
      if lastTry && r.hasDeadline then 3 else cost n r := by
  have hcost := cost_pos (n := n) r
  have hspend : 3 ≤ if lastTry && r.hasDeadline then 3 else cost n r := by split <;> omega
  cases h with
  | cleared => simp [toil, afterwards, QueueRequest.wakeUp, QueueRequest.hasDeadline, cost]
  | pushed | appended | evicted | popped => exact hspend
  | refused | missed => exact Nat.lt_of_lt_of_le (Nat.succ_pos 2) hspend

theorem toil_asleep_lt {q : BoundedQueue α} {lastTry : Bool} (h : q.attempt lastTry r = none) :
    toil n (.asleep r) < if lastTry && r.hasDeadline then 3 else cost n r := by
  have hcost := cost_pos (n := n) r
  have hagain : (lastTry && r.hasDeadline) = false := by
    rw [Bool.and_eq_false_iff, or_iff_not_imp_right, Bool.not_eq_false]
    exact BoundedQueue.lastTry_of_attempt_none h
  rw [hagain]
  simp only [toil, Bool.false_eq_true, if_false]
  omega

theorem exertion_rouse_le (c : Awaited) : exertion n (rouse c t) ≤ exertion n t + 1 := by
  by_cases hsleeps : sleepsOn t = some c
  · obtain ⟨r, hasleep, -, hroused⟩ := rouse_of_sleeps hsleeps
    have hcost := cost_pos (n := n) r
    simp only [hroused, exertion, toil, hasleep, Bool.false_and, Bool.false_eq_true, if_false]
    omega
  · rw [rouse_of_not_sleeps hsleeps]
    exact Nat.le_succ _

end

/-- Changing one thread changes a sum over the threads by that thread. -/
theorem sum_map_set {threads : List (Thread α)} {i : Nat} {t : Thread α}
    (ht : threads[i]? = some t) (t' : Thread α) (f : Thread α → Nat) :
    ((threads.set i t').map f).sum + f t = (threads.map f).sum + f t' := by
  induction threads generalizing i with
  | nil => cases ht
  | cons s threads ih =>
    cases i with
    | zero =>
      cases ht
      simp only [List.set_cons_zero, List.map_cons, List.sum_cons]
      omega
    | succ i =>
      have := ih ht
      simp only [List.set_cons_succ, List.map_cons, List.sum_cons]
      omega

theorem sum_rouse_le (n : Nat) (c : Awaited) (threads : List (Thread α)) :
    ((threads.map (rouse c)).map (exertion n)).sum ≤
      (threads.map (exertion n)).sum + threads.length := by
  induction threads with
  | nil => exact Nat.le_refl _
  | cons t threads ih =>
    have := exertion_rouse_le (n := n) (t := t) c
    simp only [List.map_cons, List.sum_cons, List.length_cons]
    omega

theorem Moved.effort_lt {move : Move} (h : m.Moved move m') : m'.effort < m.effort := by
  cases h with
  | @slept i t r lastTry rest ht hnext hwaits =>
    have hset := sum_map_set ht { t with requests := rest, activity := .asleep r }
      (exertion m.threads.length)
    have hspend := exertion_of_next (n := m.threads.length) hnext
    have hless := toil_asleep_lt (n := m.threads.length) hwaits
    simp only [effort, List.length_set]
    simp only [exertion] at hset hspend ⊢
    omega
  | @served i t r lastTry rest queue outcome ht hnext hserved =>
    have hset := sum_map_set ht { requests := rest, activity := afterwards (r.wakeUp outcome)
                                  outcomes := t.outcomes ++ [outcome] }
      (exertion m.threads.length)
    have hspend := exertion_of_next (n := m.threads.length) hnext
    have hless := toil_afterwards_lt (n := m.threads.length) hserved
    simp only [effort, List.length_set]
    simp only [exertion] at hset hspend ⊢
    omega
  | @wokeAll i t c ht hwaking sleeper =>
    have hset := sum_map_set ht { t with activity := .idle } (exertion m.threads.length)
    have hroused := sum_rouse_le m.threads.length c (m.threads.set i { t with activity := .idle })
    simp only [effort, List.length_map, List.length_set]
    rw [List.length_set] at hroused
    simp only [exertion, hwaking, toil] at hset hroused ⊢
    omega
  | @wokeNobody i t c ht hwaking hnone =>
    have hset := sum_map_set ht { t with activity := .idle } (exertion m.threads.length)
    simp only [effort, List.length_set]
    simp only [exertion, hwaking, toil] at hset ⊢
    omega
  | @wokeOne i j t s c ht hwaking hs hsleeps =>
    have hs' := getElem?_set_of_sleeps ht hwaking hs hsleeps { t with activity := .idle }
    have hset := sum_map_set ht { t with activity := .idle } (exertion m.threads.length)
    have hset' := sum_map_set hs' (rouse c s) (exertion m.threads.length)
    have hroused := exertion_rouse_le (n := m.threads.length) (t := s) c
    simp only [effort, List.length_set]
    simp only [exertion, hwaking, toil] at hset hset' hroused ⊢
    omega
  | @expired i t r ht hasleep hdeadline =>
    have hset := sum_map_set ht { t with activity := .awake r true } (exertion m.threads.length)
    have hcost : cost m.threads.length r = 5 := by
      cases r <;> simp_all [cost, QueueRequest.hasDeadline]
    simp only [effort, List.length_set]
    simp only [exertion, hasleep, hdeadline, toil, hcost, Bool.and_true, if_true] at hset ⊢
    omega

/-- No schedule goes on for ever. -/
theorem schedule_ends (s : Nat → Monitor α) :
    ¬ ∀ n, ∃ move, (s n).move? move = some (s (n + 1)) := by
  intro hmoves
  have hless (n : Nat) : (s n).effort + n ≤ (s 0).effort := by
    induction n with
    | zero => exact Nat.le_refl _
    | succ n ih =>
      obtain ⟨move, hmove⟩ := hmoves n
      have := (moved_of_move? hmove).effort_lt
      omega
  have := hless ((s 0).effort + 1)
  omega

/-! ## At rest -/

/-- No thread can enter the queue or wake others. Only a deadline can change that. -/
def AtRest (m : Monitor α) : Prop := ∀ move ∈ m.candidates, m.move? move = none

theorem mem_candidates {i : Nat} {t : Thread α} (ht : m.threads[i]? = some t) :
    .wake i (m.firstSleeper i) ∈ m.candidates ∧ .enter i ∈ m.candidates := by
  have hi : i < m.threads.length := (List.getElem?_eq_some_iff.mp ht).1
  simp [candidates, hi]

theorem exists_enter {i : Nat} {t : Thread α} (ht : m.threads[i]? = some t)
    (hnext : (next t).isSome) : ∃ m', m.enter? i = some m' := by
  obtain ⟨⟨r, lastTry, rest⟩, hnext⟩ := Option.isSome_iff_exists.mp hnext
  simp only [enter?, ht, hnext, bind, Option.bind_some]
  split <;> exact ⟨_, rfl⟩

/-- A wake-up that is due can be given, whoever it reaches. -/
theorem exists_wake {i : Nat} {t : Thread α} {w : WakeUp} (ht : m.threads[i]? = some t)
    (hwaking : t.activity = .waking w) : ∃ m', m.wake? i (m.firstSleeper i) = some m' := by
  cases w with
  | all c =>
    simp only [wake?, ht, hwaking, bind, Option.bind_some]
    exact ⟨_, rfl⟩
  | one c =>
    have hfirst : m.firstSleeper i =
        m.threads.findIdx? fun s => decide (sleepsOn s = some c) := by
      simp [firstSleeper, ht, hwaking]
    rw [hfirst]
    cases hfind : m.threads.findIdx? fun s => decide (sleepsOn s = some c) with
    | none =>
      have hnone := List.findIdx?_eq_none_iff.mp hfind
      have hnobody : (m.threads.all fun s => sleepsOn s ≠ some c) = true := by
        simpa using hnone
      simp only [wake?, ht, hwaking, bind, Option.bind_some, hnobody, if_true]
      exact ⟨_, rfl⟩
    | some j =>
      obtain ⟨hj, hsleeps, -⟩ := List.findIdx?_eq_some_iff_getElem.mp hfind
      simp only [decide_eq_true_eq] at hsleeps
      simp only [wake?, ht, hwaking, bind, Option.bind_some, List.getElem?_eq_getElem hj, hsleeps,
        if_true]
      exact ⟨_, rfl⟩

/-- At rest a thread is through with its requests, or it sleeps. -/
theorem AtRest.activity (h : m.AtRest) {i : Nat} {t : Thread α} (ht : m.threads[i]? = some t) :
    (t.activity = .idle ∧ t.requests = []) ∨ ∃ r, t.activity = .asleep r := by
  obtain ⟨hcanWake, hcanEnter⟩ := mem_candidates ht
  have hstays : ¬ (next t).isSome := by
    intro hnext
    obtain ⟨m', henter⟩ := exists_enter ht hnext
    have := h _ hcanEnter
    rw [move?, henter] at this
    cases this
  cases hactivity : t.activity with
  | idle =>
    cases hrequests : t.requests with
    | nil => exact .inl ⟨rfl, rfl⟩
    | cons r rest => simp [next, hactivity, hrequests] at hstays
  | asleep r => exact .inr ⟨r, rfl⟩
  | awake r lastTry => simp [next, hactivity] at hstays
  | waking w =>
    obtain ⟨m', hwake⟩ := exists_wake ht hactivity
    have := h _ hcanWake
    rw [move?, hwake] at this
    cases this

/-- At rest whoever sleeps has nothing to wait for any more. -/
theorem AtRest.supply (h : m.AtRest) (hm : m.Covered) {i : Nat} {t : Thread α} {c : Awaited}
    (ht : m.threads[i]? = some t) (hsleeps : sleepsOn t = some c) : c.supply m.queue = 0 := by
  rcases Nat.eq_zero_or_pos (c.supply m.queue) with hnothing | hsome
  · exact hnothing
  · obtain ⟨s, hs, hdue⟩ := hm.onTheWay (List.mem_of_getElem? ht) hsleeps hsome
    obtain ⟨j, hj⟩ := List.getElem?_of_mem hs
    rcases h.activity hj with ⟨hidle, -⟩ | ⟨r, hasleep⟩
    · simp [owesOne, owesAll, wasWoken, hidle] at hdue
    · simp [owesOne, owesAll, wasWoken, hasleep] at hdue

/-! ## Work -/

theorem pending_of_next {t : Thread α} {r : QueueRequest α} {lastTry : Bool}
    {rest : List (QueueRequest α)} (h : next t = some (r, lastTry, rest)) :
    t.pending = r :: rest := by
  unfold next at h
  split at h
  · rename_i hidle hrequests
    cases h
    simp [Thread.pending, hidle, hrequests]
  · rename_i hawake
    cases h
    simp [Thread.pending, hawake]
  · cases h

theorem work_rouse (c : Awaited) (t : Thread α) : (rouse c t).work = t.work := by
  by_cases hsleeps : sleepsOn t = some c
  · obtain ⟨r, hasleep, -, hroused⟩ := rouse_of_sleeps hsleeps
    simp [hroused, Thread.work, Thread.pending, hasleep]
  · rw [rouse_of_not_sleeps hsleeps]

theorem map_work_set {threads : List (Thread α)} {i : Nat} {t t' : Thread α}
    (ht : threads[i]? = some t) (hwork : t'.work = t.work) :
    (threads.set i t').map Thread.work = threads.map Thread.work := by
  have hmap : (threads.map Thread.work)[i]? = some t.work := by rw [List.getElem?_map, ht]; rfl
  obtain ⟨hlt, hget⟩ := List.getElem?_eq_some_iff.mp hmap
  rw [List.map_set, hwork, ← hget, List.set_getElem_self]

/-- A move gets some work done in that the queue serves a request, or it leaves the
queue and all work as they are. -/
theorem Moved.work {move : Move} (h : m.Moved move m') :
    (m'.queue = m.queue ∧ m'.threads.map Thread.work = m.threads.map Thread.work) ∨
      ∃ i r lastTry rest outcomes outcome,
        (m.threads.map Thread.work)[i]? = some (r :: rest, outcomes) ∧
          m.queue.Served lastTry r m'.queue outcome ∧
          m'.threads.map Thread.work =
            (m.threads.map Thread.work).set i (rest, outcomes ++ [outcome]) := by
  cases h with
  | slept ht hnext =>
    refine .inl ⟨rfl, map_work_set ht ?_⟩
    rw [Thread.work, Thread.work, pending_of_next hnext, Thread.pending]
  | @served i t r lastTry rest queue outcome ht hnext hserved =>
    refine .inr ⟨i, r, lastTry, rest, t.outcomes, outcome, ?_, hserved, ?_⟩
    · rw [List.getElem?_map, ht, Option.map_some, Thread.work, pending_of_next hnext]
    · rw [List.map_set]
      cases hwake : r.wakeUp outcome <;> rfl
  | wokeAll ht hwaking =>
    refine .inl ⟨rfl, ?_⟩
    dsimp only
    rw [List.map_map, show Thread.work ∘ rouse _ = (Thread.work : Thread α → _) from
      funext (work_rouse _)]
    exact map_work_set ht (by simp [Thread.work, Thread.pending, hwaking])
  | wokeNobody ht hwaking =>
    exact .inl ⟨rfl, map_work_set ht (by simp [Thread.work, Thread.pending, hwaking])⟩
  | @wokeOne i j t s c ht hwaking hs hsleeps =>
    refine .inl ⟨rfl, ?_⟩
    have hidle : (m.threads.set i { t with activity := .idle }).map Thread.work =
        m.threads.map Thread.work :=
      map_work_set ht (by simp [Thread.work, Thread.pending, hwaking])
    have hs' := getElem?_set_of_sleeps ht hwaking hs hsleeps { t with activity := .idle }
    exact (map_work_set hs' (work_rouse c s)).trans hidle
  | expired ht hasleep =>
    exact .inl ⟨rfl, map_work_set ht (by simp [Thread.work, Thread.pending, hasleep])⟩

/-- At rest a request that has had no answer waits for what the queue does not have. -/
theorem AtRest.pending (h : m.AtRest) (hm : m.Covered) {i : Nat} {t : Thread α}
    (ht : m.threads[i]? = some t) (r : QueueRequest α) (rest : List (QueueRequest α))
    (hpending : t.pending = r :: rest) (c : Awaited) (hc : r.waitsFor = some c) :
    c.supply m.queue = 0 := by
  rcases h.activity ht with ⟨hidle, hdone⟩ | ⟨s, hasleep⟩
  · rw [Thread.pending, hidle, hdone] at hpending
    cases hpending
  · rw [Thread.pending, hasleep] at hpending
    cases hpending
    exact h.supply hm ht (by rw [sleepsOn, hasleep]; exact hc)

/-! ## A producer and a consumer -/

/-- A producer hands `xs` over to a consumer: `popped` were popped, and `rest` are
still to be pushed. -/
structure HandsOver (xs popped rest : List α) (m : Monitor α) : Prop where
  inOrder : popped ++ m.queue.items ++ rest = xs
  work : m.threads.map Thread.work =
    [(rest.map fun x => .push x .always, (popped ++ m.queue.items).map fun _ => .pushed true),
      ((m.queue.items ++ rest).map fun _ => .pop .always, popped.map fun x => .popped (some x))]

theorem handsOver_of_start {xs : List α} (hempty : m.queue.items = [])
    (hthreads : m.threads = [.producer .always xs, .consumer .always xs]) :
    m.HandsOver xs [] xs :=
  ⟨by simp [hempty], by simp [hempty, hthreads, Thread.work, Thread.pending, Thread.producer,
    Thread.consumer]⟩

theorem Moved.handsOver {move : Move} {xs popped rest : List α} (h : m.Moved move m')
    (hm : m.HandsOver xs popped rest) : ∃ popped' rest', m'.HandsOver xs popped' rest' := by
  rcases h.work with ⟨hqueue, hwork⟩ | ⟨i, r, lastTry, tail, outcomes, outcome, hi, hserved, hwork⟩
  · exact ⟨popped, rest, by rw [hqueue]; exact hm.inOrder, by rw [hwork, hqueue]; exact hm.work⟩
  · rw [hm.work] at hi hwork
    match i, hi with
    | 0, hi =>
      -- the producer pushes the next element
      cases rest with
      | nil => simp at hi
      | cons x rest =>
        simp only [List.map_cons, List.getElem?_cons_zero, Option.some.injEq, Prod.mk.injEq,
          List.cons.injEq] at hi
        obtain ⟨⟨rfl, rfl⟩, rfl⟩ := hi
        generalize hqueue' : m'.queue = queue' at hserved
        cases hserved with
        | pushed =>
          refine ⟨popped, rest, ?_, ?_⟩
          · rw [← hm.inOrder, hqueue']
            simp
          · rw [hwork, hqueue']
            simp only [List.set_cons_zero, List.map_append, List.map_cons, List.map_nil,
              List.append_assoc, List.cons_append, List.nil_append]
        | refused _ _ hgives => cases hgives
    | 1, hi =>
      -- the consumer pops the oldest element
      simp only [List.getElem?_cons_succ, List.getElem?_cons_zero, Option.some.injEq,
        Prod.mk.injEq] at hi
      obtain ⟨hpops, rfl⟩ := hi
      obtain ⟨y, ys, hys, rfl, rfl⟩ := List.map_eq_cons_iff.mp hpops
      generalize hqueue' : m'.queue = queue' at hserved
      cases hserved with
      | popped _ hitems =>
        rw [hitems, List.cons_append] at hys
        cases hys
        refine ⟨popped ++ [y], rest, ?_, ?_⟩
        · rw [← hm.inOrder, hqueue', hitems]
          simp
        · rw [hwork, hqueue', hitems]
          simp only [List.set_cons_succ, List.set_cons_zero, List.map_append, List.map_cons,
            List.map_nil, List.append_assoc, List.cons_append, List.nil_append]
      | missed _ hgives => cases hgives
    | i + 2, hi => simp at hi

theorem Reaches.handsOver {xs popped rest : List α} (h : m.Reaches m')
    (hm : m.HandsOver xs popped rest) : ∃ popped' rest', m'.HandsOver xs popped' rest' := by
  induction h with
  | refl => exact ⟨popped, rest, hm⟩
  | step move _ hmove ih =>
    obtain ⟨popped, rest, hm⟩ := ih
    exact (moved_of_move? hmove).handsOver hm

/-- What is left to do at rest is nothing. -/
theorem HandsOver.complete {xs popped rest : List α} (hm : m.HandsOver xs popped rest)
    (hcovered : m.Covered) (h : m.AtRest) :
    m.queue.items = [] ∧ m.threads.map Thread.outcomes =
      [xs.map fun _ => .pushed true, xs.map fun x => .popped (some x)] := by
  obtain ⟨producer, consumer, hthreads⟩ :
      ∃ producer consumer, m.threads = [producer, consumer] := by
    have hlength := congrArg List.length hm.work
    rw [List.length_map] at hlength
    exact List.length_eq_two.mp hlength
  have hwork := hm.work
  rw [hthreads] at hwork
  simp only [List.map_cons, List.map_nil, List.cons.injEq, and_true, Thread.work,
    Prod.mk.injEq] at hwork
  obtain ⟨⟨htoPush, hpushed⟩, htoPop, hpopped⟩ := hwork
  have hproducer := h.pending hcovered (i := 0) (t := producer) (by rw [hthreads]; rfl)
  have hconsumer := h.pending hcovered (i := 1) (t := consumer) (by rw [hthreads]; rfl)
  have hnothing : m.queue.items ++ rest = [] := by
    cases hleft : m.queue.items ++ rest with
    | nil => rfl
    | cons x left =>
      -- the consumer sleeps and the queue is empty, so that the producer has room
      rw [hleft] at htoPop
      have hempty : m.queue.items.length = 0 := hconsumer _ _ htoPop .notEmpty rfl
      rw [List.eq_nil_of_length_eq_zero hempty, List.nil_append] at hleft
      rw [hleft] at htoPush
      have hfull := Nat.le_of_sub_eq_zero (hproducer _ _ htoPush .notFull rfl)
      exact absurd m.queue.capacity_pos (by omega)
  obtain ⟨hitems, rfl⟩ := List.append_eq_nil_iff.mp hnothing
  obtain rfl : popped = xs := by
    have := hm.inOrder
    rwa [hitems, List.append_nil, List.append_nil] at this
  rw [hitems, List.append_nil] at hpushed
  refine ⟨hitems, ?_⟩
  rw [hthreads, List.map_cons, List.map_cons, hpushed, hpopped, List.map_nil]

/-! ## The schedule -/

theorem Reaches.head {m'' : Monitor α} {move : Move} (h : m.move? move = some m')
    (h' : m'.Reaches m'') : m.Reaches m'' := by
  induction h' with
  | refl => exact .step move .refl h
  | step next _ hnext ih => exact .step next ih hnext

theorem reaches_run (steps : Nat) (m : Monitor α) : m.Reaches (run steps m) := by
  induction steps generalizing m with
  | zero => exact .refl
  | succ steps ih =>
    unfold run
    split
    · rename_i hfind
      obtain ⟨move, -, hmove⟩ := List.exists_of_findSome?_eq_some hfind
      exact .head hmove (ih _)
    · exact .refl

/-- A schedule of enough steps comes to rest. -/
theorem atRest_run {steps : Nat} (h : m.effort ≤ steps) : (run steps m).AtRest := by
  induction steps generalizing m with
  | zero =>
    intro move _
    cases hmove : m.move? move with
    | none => exact hmove
    | some m' =>
      have := (moved_of_move? hmove).effort_lt
      omega
  | succ steps ih =>
    unfold run
    split
    · rename_i hfind
      obtain ⟨move, -, hmove⟩ := List.exists_of_findSome?_eq_some hfind
      have := (moved_of_move? hmove).effort_lt
      exact ih (by omega)
    · rename_i hfind
      exact List.findSome?_eq_none_iff.mp hfind

/-- A producer and a consumer that share a queue and have not begun. -/
def handingOver (queue : BoundedQueue α) (xs : List α) : Monitor α where
  queue := queue
  threads := [.producer .always xs, .consumer .always xs]

theorem idle_handingOver (queue : BoundedQueue α) (xs : List α) :
    ∀ t ∈ (handingOver queue xs).threads, t.activity = .idle := by
  simp [handingOver, Thread.producer, Thread.consumer]

theorem effort_handingOver (queue : BoundedQueue α) (xs : List α) :
    (handingOver queue xs).effort = 6 * xs.length := by
  simp [handingOver, effort, exertion, toil, Thread.producer, Thread.consumer, Function.comp_def,
    cost, QueueRequest.hasDeadline]
  omega

/-- The schedule hands all elements over. -/
theorem handOver_complete (queue : BoundedQueue α) (hempty : queue.items = []) (xs : List α) :
    (handOver queue .always xs).queue.items = [] ∧
      (handOver queue .always xs).threads.map Thread.outcomes =
        [xs.map fun _ => .pushed true, xs.map fun x => .popped (some x)] := by
  have hreaches : (handingOver queue xs).Reaches (handOver queue .always xs) := reaches_run _ _
  have hrest : (handOver queue .always xs).AtRest := by
    refine atRest_run (m := handingOver queue xs) ?_
    rw [effort_handingOver]
    omega
  obtain ⟨popped, rest, hm⟩ := hreaches.handsOver (handsOver_of_start hempty rfl)
  exact hm.complete (hreaches.covered (covered_of_idle (idle_handingOver queue xs))) hrest

/-! ## Wake-ups -/

/-- Nobody sleeps for nothing, whatever the threads do: as long as somebody waits for
elements, the queue holds no more of them than there are wake-ups due and woken threads
that have not looked yet, and the same goes for room, where a wake-up for all is enough.
So whoever sleeps on what there is has a wake-up on its way. No schedule goes on for
ever, and a producer and a consumer that wait for one another stop only when all
elements are handed over in order. -/
theorem wakeUps_on_their_way {m m' : Monitor α} (hidle : ∀ t ∈ m.threads, t.activity = .idle)
    (h : m.Reaches m') :
    (0 < m'.threads.countP (sleeps .notEmpty) →
      m'.queue.items.length ≤
        m'.threads.countP (owesOne .notEmpty) + m'.threads.countP (wasWoken .notEmpty)) ∧
    (0 < m'.threads.countP (sleeps .notFull) →
      0 < m'.threads.countP (owesAll .notFull) ∨ m'.queue.capacity - m'.queue.items.length ≤
        m'.threads.countP (owesOne .notFull) + m'.threads.countP (wasWoken .notFull)) ∧
    (∀ c, ∀ t ∈ m'.threads, sleepsOn t = some c → 0 < c.supply m'.queue →
      ∃ s ∈ m'.threads, owesOne c s ∨ owesAll c s ∨ wasWoken c s) ∧
    (∀ s : Nat → Monitor α, s 0 = m' → ¬ ∀ n, ∃ move, (s n).move? move = some (s (n + 1))) ∧
    ∀ xs : List α, m.queue.items = [] →
      m.threads = [.producer .always xs, .consumer .always xs] →
      (∀ move, m'.move? move = none) →
      m'.queue.items = [] ∧ m'.threads.map Thread.outcomes =
        [xs.map fun _ => .pushed true, xs.map fun x => .popped (some x)] := by
  have hcovered : m'.Covered := h.covered (covered_of_idle hidle)
  refine ⟨fun hsome => ?_, hcovered.covers .notFull,
    fun _ _ ht hsleeps hsupply => hcovered.onTheWay ht hsleeps hsupply,
    fun s _ => schedule_ends s, fun xs hempty hthreads hrest => ?_⟩
  · rcases hcovered.covers .notEmpty hsome with hall | hle
    · rw [hcovered.singly] at hall
      exact absurd hall (Nat.lt_irrefl 0)
    · exact hle
  · obtain ⟨popped, rest, hm⟩ := h.handsOver (handsOver_of_start hempty hthreads)
    exact hm.complete hcovered fun move _ => hrest move

/-- One element to hand over. -/
def handingOne : Monitor Nat where
  queue := { capacity := 1, capacity_pos := Nat.one_pos }
  threads := [.producer .always [7], .consumer .always [7]]

/-- The consumer came first and sleeps; the element is in the queue and the producer has
not woken anybody yet. -/
def wakeUpDue : Monitor Nat where
  queue := { capacity := 1, items := [7], capacity_pos := Nat.one_pos }
  threads := [{ requests := [], activity := .waking (.one .notEmpty), outcomes := [.pushed true] },
    { requests := [], activity := .asleep (.pop .always) }]

theorem handingOne_reaches : handingOne.Reaches wakeUpDue :=
  .step (.enter 0) (.step (.enter 1) .refl rfl) rfl

theorem wakeUps_on_their_way_one :
    (∀ t ∈ handingOne.threads, t.activity = .idle) ∧ handingOne.Reaches wakeUpDue ∧
      wakeUpDue.queue.items = [7] ∧ 0 < wakeUpDue.threads.countP (sleeps .notEmpty) ∧
      wakeUpDue.queue.items.length ≤ wakeUpDue.threads.countP (owesOne .notEmpty) +
        wakeUpDue.threads.countP (wasWoken .notEmpty) :=
  have hidle : ∀ t ∈ handingOne.threads, t.activity = .idle := by decide
  have hsleeps : 0 < wakeUpDue.threads.countP (sleeps .notEmpty) := by decide
  ⟨hidle, handingOne_reaches, rfl, hsleeps,
    (wakeUps_on_their_way hidle handingOne_reaches).1 hsleeps⟩

end Monitor
end SampleStream
