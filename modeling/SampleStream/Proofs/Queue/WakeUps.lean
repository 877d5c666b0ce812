import Mathlib.Data.Bool.Basic
import Mathlib.Data.List.Basic
import SampleStream.Queue.Monitor

/-!
# Wake-ups of a shared queue

A sleeper may stay asleep only while there is nothing for it in the queue, or while
a wake-up is on its way. `Covered` says so by numbers: as long as somebody sleeps on
a condition, the queue can serve no more requests that wait for it than there are
wake-ups due and threads that were woken and have not looked again. Every move keeps
this (`Moved.covered`), whoever enters first and whichever sleeper is reached.
-/

namespace SampleStream

variable {α : Type}

/-! ## What the queue has for those who wait -/

/-- How many requests that wait for the condition a queue can serve. -/
def Awaited.supply (q : BoundedQueue α) : Awaited → Nat
  | notEmpty => q.items.length
  | notFull => q.capacity - q.items.length

namespace QueueRequest

theorem eq_of_waitsFor_push {x : α} {patience : Patience} {c : Awaited}
    (h : (push x patience).waitsFor = some c) : c = .notFull := by
  cases patience <;> cases h <;> rfl

theorem eq_of_waitsFor_pop {patience : Patience} {c : Awaited}
    (h : (pop patience : QueueRequest α).waitsFor = some c) : c = .notEmpty := by
  cases patience <;> cases h <;> rfl

end QueueRequest

namespace BoundedQueue

/-- What serving a request does to a queue and what comes of it. -/
inductive Served (q : BoundedQueue α) (lastTry : Bool) :
    QueueRequest α → BoundedQueue α → QueueOutcome α → Prop where
  | pushed (x : α) (patience : Patience) (hroom : q.items.length < q.capacity) :
    Served q lastTry (.push x patience) { q with items := q.items ++ [x] } (.pushed true)
  | refused (x : α) {patience : Patience} (hfull : q.capacity ≤ q.items.length)
    (hgives : Patience.givesUp lastTry patience = true) :
    Served q lastTry (.push x patience) q (.pushed false)
  | appended (x : α) (hroom : q.items.length < q.capacity) :
    Served q lastTry (.pushEvicting x) { q with items := q.items ++ [x] } (.pushed true)
  | evicted (x : α) (hfull : q.capacity ≤ q.items.length) :
    Served q lastTry (.pushEvicting x)
      { q with items := q.items.tail ++ [x], evicted := q.evicted + 1 } (.pushed false)
  | popped {x : α} {rest : List α} (patience : Patience) (hitems : q.items = x :: rest) :
    Served q lastTry (.pop patience) { q with items := rest } (.popped (some x))
  | missed {patience : Patience} (hempty : q.items = [])
    (hgives : Patience.givesUp lastTry patience = true) :
    Served q lastTry (.pop patience) q (.popped none)
  | cleared : Served q lastTry .clear q.clear .cleared

variable {q q' : BoundedQueue α} {lastTry : Bool} {r : QueueRequest α} {outcome : QueueOutcome α}

theorem attempt_some (h : q.attempt lastTry r = some (q', outcome)) :
    q.Served lastTry r q' outcome := by
  cases r with
  | push x patience =>
    by_cases hfull : q.capacity ≤ q.items.length
    · rw [attempt, push?_eq_none.mpr hfull] at h
      dsimp only at h
      split at h
      · rename_i hgives
        cases h
        exact .refused x hfull hgives
      · cases h
    · have hpush : q.push? x = some { q with items := q.items ++ [x] } := by
        simp [push?, isFull, hfull]
      rw [attempt, hpush] at h
      cases h
      exact .pushed x patience (Nat.lt_of_not_le hfull)
  | pushEvicting x =>
    by_cases hfull : q.capacity ≤ q.items.length
    · simp only [attempt, pushEvicting, isFull, hfull, decide_true, if_true] at h
      cases h
      exact .evicted x hfull
    · simp only [attempt, pushEvicting, isFull, hfull, decide_false, Bool.false_eq_true,
        if_false] at h
      cases h
      exact .appended x (Nat.lt_of_not_le hfull)
  | pop patience =>
    cases hitems : q.items with
    | nil =>
      simp only [attempt, pop?, hitems] at h
      split at h
      · rename_i hgives
        cases h
        exact .missed hitems hgives
      · cases h
    | cons x rest =>
      simp only [attempt, pop?, hitems] at h
      cases h
      exact .popped patience hitems
  | clear =>
    cases h
    exact .cleared

/-- A request has to wait only for what the queue does not have. -/
theorem attempt_none (h : q.attempt lastTry r = none) :
    ∃ c : Awaited, r.waitsFor = some c ∧ c.supply q = 0 := by
  cases r with
  | push x patience =>
    by_cases hfull : q.capacity ≤ q.items.length
    · refine ⟨.notFull, ?_, Nat.sub_eq_zero_of_le hfull⟩
      rw [attempt, push?_eq_none.mpr hfull] at h
      cases patience with
      | never => cases h
      | always | timed => rfl
    · simp [attempt, push?, isFull, hfull] at h
  | pushEvicting x => cases h
  | pop patience =>
    cases hitems : q.items with
    | nil =>
      refine ⟨.notEmpty, ?_, congrArg List.length hitems⟩
      simp only [attempt, pop?, hitems] at h
      cases patience with
      | never => cases h
      | always | timed => rfl
    | cons x rest => simp [attempt, pop?, hitems] at h
  | clear => cases h

/-- A request does not wait once its deadline is over. -/
theorem lastTry_of_attempt_none (h : q.attempt lastTry r = none) (hdeadline : r.hasDeadline) :
    lastTry = false := by
  cases lastTry with
  | false => rfl
  | true =>
    unfold QueueRequest.hasDeadline at hdeadline
    split at hdeadline
    · simp only [attempt, Patience.givesUp] at h
      split at h <;> cases h
    · simp only [attempt, Patience.givesUp] at h
      split at h <;> cases h
    · cases hdeadline

namespace Served
variable (h : q.Served lastTry r q' outcome)
include h

/-- What a request leaves to those who wait for something else: as much as before, or
one more and a wake-up for it, or all there can be and a wake-up for all. -/
theorem supply_le (c : Awaited) :
    r.wakeUp outcome = some (.all c) ∨
      c.supply q' ≤ c.supply q + if r.wakeUp outcome = some (.one c) then 1 else 0 := by
  cases h with
  | pushed | appended =>
    right
    cases c with
    | notEmpty => simp [Awaited.supply, QueueRequest.wakeUp]
    | notFull =>
      simp only [Awaited.supply, List.length_append, List.length_singleton]
      omega
  | refused | missed => exact .inr (Nat.le_add_right _ _)
  | evicted x hfull =>
    right
    cases c with
    | notEmpty =>
      simp only [Awaited.supply, List.length_append, List.length_tail, List.length_singleton,
        QueueRequest.wakeUp, if_true]
      omega
    | notFull =>
      simp only [Awaited.supply, List.length_append, List.length_tail, List.length_singleton]
      omega
  | popped patience hitems =>
    right
    cases c with
    | notEmpty => simp [Awaited.supply, hitems, QueueRequest.wakeUp]
    | notFull =>
      simp only [Awaited.supply, hitems, List.length_cons, QueueRequest.wakeUp, if_true]
      omega
  | cleared =>
    cases c with
    | notEmpty => exact .inr (Nat.zero_le _)
    | notFull => exact .inl rfl

/-- A request takes what it waited for, or there is nothing of it. -/
theorem supply_of_waitsFor {c : Awaited} (hc : r.waitsFor = some c) :
    c.supply q' ≤ c.supply q - 1 := by
  cases h with
  | pushed x patience hroom =>
    obtain rfl := QueueRequest.eq_of_waitsFor_push hc
    simp only [Awaited.supply, List.length_append, List.length_singleton]
    omega
  | refused x hfull =>
    obtain rfl := QueueRequest.eq_of_waitsFor_push hc
    simp only [Awaited.supply]
    omega
  | popped patience hitems =>
    obtain rfl := QueueRequest.eq_of_waitsFor_pop hc
    simp [Awaited.supply, hitems]
  | missed hempty =>
    obtain rfl := QueueRequest.eq_of_waitsFor_pop hc
    simp [Awaited.supply, hempty]
  | appended | evicted | cleared => cases hc

/-- Nobody is owed a wake-up for all who wait for elements. -/
theorem wakeUp_ne_all : r.wakeUp outcome ≠ some (.all .notEmpty) := by
  cases h <;> simp [QueueRequest.wakeUp]

end Served
end BoundedQueue

namespace Monitor

/-! ## Moves -/

/-- What a thread is at after its request was served. -/
def afterwards : Option WakeUp → Activity α
  | some w => .waking w
  | none => .idle

/-- What each move does. -/
inductive Moved (m : Monitor α) : Move → Monitor α → Prop where
  /-- The request of a thread has to wait. -/
  | slept {i : Nat} {t : Thread α} {r : QueueRequest α} {lastTry : Bool}
    {rest : List (QueueRequest α)} (ht : m.threads[i]? = some t)
    (hnext : next t = some (r, lastTry, rest)) (hwaits : m.queue.attempt lastTry r = none) :
    Moved m (.enter i)
      { m with threads := m.threads.set i { t with requests := rest, activity := .asleep r } }
  /-- The request of a thread is served. -/
  | served {i : Nat} {t : Thread α} {r : QueueRequest α} {lastTry : Bool}
    {rest : List (QueueRequest α)} {queue : BoundedQueue α} {outcome : QueueOutcome α}
    (ht : m.threads[i]? = some t) (hnext : next t = some (r, lastTry, rest))
    (hserved : m.queue.Served lastTry r queue outcome) :
    Moved m (.enter i)
      { queue, threads := m.threads.set i {
          requests := rest, activity := afterwards (r.wakeUp outcome)
          outcomes := t.outcomes ++ [outcome] } }
  /-- All sleepers are woken. -/
  | wokeAll {i : Nat} {t : Thread α} {c : Awaited} (ht : m.threads[i]? = some t)
    (hwaking : t.activity = .waking (.all c)) (sleeper : Option Nat) :
    Moved m (.wake i sleeper)
      { m with threads := (m.threads.set i { t with activity := .idle }).map (rouse c) }
  /-- There is nobody to wake. -/
  | wokeNobody {i : Nat} {t : Thread α} {c : Awaited} (ht : m.threads[i]? = some t)
    (hwaking : t.activity = .waking (.one c)) (hnone : ∀ s ∈ m.threads, sleepsOn s ≠ some c) :
    Moved m (.wake i none) { m with threads := m.threads.set i { t with activity := .idle } }
  /-- One sleeper is woken. -/
  | wokeOne {i j : Nat} {t s : Thread α} {c : Awaited} (ht : m.threads[i]? = some t)
    (hwaking : t.activity = .waking (.one c)) (hs : m.threads[j]? = some s)
    (hsleeps : sleepsOn s = some c) :
    Moved m (.wake i (some j))
      { m with threads := (m.threads.set i { t with activity := .idle }).set j (rouse c s) }
  /-- The time of a sleeper is over. -/
  | expired {i : Nat} {t : Thread α} {r : QueueRequest α} (ht : m.threads[i]? = some t)
    (hasleep : t.activity = .asleep r) (hdeadline : r.hasDeadline = true) :
    Moved m (.expire i)
      { m with threads := m.threads.set i { t with activity := .awake r true } }

variable {m m' : Monitor α}

theorem moved_of_enter? {i : Nat} (h : m.enter? i = some m') : m.Moved (.enter i) m' := by
  simp only [enter?, bind, Option.bind_eq_some_iff] at h
  obtain ⟨t, ht, ⟨r, lastTry, rest⟩, hnext, h⟩ := h
  dsimp only at h
  cases hattempt : m.queue.attempt lastTry r with
  | none =>
    rw [hattempt] at h
    cases h
    exact .slept ht hnext hattempt
  | some result =>
    obtain ⟨queue, outcome⟩ := result
    rw [hattempt] at h
    cases h
    exact .served ht hnext (BoundedQueue.attempt_some hattempt)

theorem moved_of_wake? {i : Nat} {sleeper : Option Nat} (h : m.wake? i sleeper = some m') :
    m.Moved (.wake i sleeper) m' := by
  simp only [wake?, bind, Option.bind_eq_some_iff] at h
  obtain ⟨t, ht, h⟩ := h
  split at h
  · rename_i hwaking
    cases h
    exact .wokeAll ht hwaking _
  · rename_i c hwaking
    split at h
    · rename_i hnone
      cases h
      exact .wokeNobody ht hwaking (by simpa using hnone)
    · cases h
  · rename_i c j hwaking
    simp only [Option.bind_eq_some_iff] at h
    obtain ⟨s, hs, h⟩ := h
    split at h
    · rename_i hsleeps
      cases h
      exact .wokeOne ht hwaking hs hsleeps
    · cases h
  · cases h

theorem moved_of_expire? {i : Nat} (h : m.expire? i = some m') : m.Moved (.expire i) m' := by
  simp only [expire?, bind, Option.bind_eq_some_iff] at h
  obtain ⟨t, ht, h⟩ := h
  split at h
  · rename_i r hasleep
    split at h
    · rename_i hdeadline
      cases h
      exact .expired ht hasleep hdeadline
    · cases h
  · cases h

theorem moved_of_move? {move : Move} (h : m.move? move = some m') : m.Moved move m' := by
  cases move with
  | enter i => exact moved_of_enter? h
  | wake i sleeper => exact moved_of_wake? h
  | expire i => exact moved_of_expire? h

/-! ## Counting threads -/

/-- Whether a thread sleeps on `c`. -/
def sleeps (c : Awaited) (t : Thread α) : Bool := decide (sleepsOn t = some c)

/-- Whether a thread owes a wake-up to one of those who sleep on `c`. -/
def owesOne (c : Awaited) (t : Thread α) : Bool :=
  match t.activity with
  | .waking (.one d) => decide (d = c)
  | _ => false

/-- Whether a thread owes a wake-up to all who sleep on `c`. -/
def owesAll (c : Awaited) (t : Thread α) : Bool :=
  match t.activity with
  | .waking (.all d) => decide (d = c)
  | _ => false

/-- Whether a thread that slept on `c` was woken and has not looked at the queue
since. -/
def wasWoken (c : Awaited) (t : Thread α) : Bool :=
  match t.activity with
  | .awake r false => decide (r.waitsFor = some c)
  | _ => false

/-- Changing one thread changes a count by that thread. -/
theorem countP_set {threads : List (Thread α)} {i : Nat} {t : Thread α}
    (ht : threads[i]? = some t) (t' : Thread α) (p : Thread α → Bool) :
    (threads.set i t').countP p + (p t).toNat = threads.countP p + (p t').toNat := by
  obtain ⟨hlt, rfl⟩ := List.getElem?_eq_some_iff.mp ht
  rw [List.countP_set hlt]
  cases h : p threads[i] with
  | false => cases p t' <;> simp
  | true =>
    have hpos : 0 < threads.countP p := List.countP_pos_iff.mpr ⟨_, List.getElem_mem hlt, h⟩
    cases p t' with
    | false =>
      simp only [if_true, Bool.false_eq_true, if_false, Bool.toNat_true, Bool.toNat_false]
      omega
    | true =>
      simp only [if_true, Bool.toNat_true]
      omega

section
variable {c : Awaited} {t : Thread α} {r : QueueRequest α}

theorem sleeps_of_asleep (h : t.activity = .asleep r) :
    sleeps c t = decide (r.waitsFor = some c) := by
  rw [sleeps, sleepsOn, h]

/-- A thread that enters is neither asleep nor about to wake others, and if it was
woken, it was for what its request waits for. -/
theorem entering {lastTry : Bool} {rest : List (QueueRequest α)}
    (h : next t = some (r, lastTry, rest)) :
    (∀ c, sleeps c t = false ∧ owesOne c t = false ∧ owesAll c t = false) ∧
      ∀ c, wasWoken c t = true → r.waitsFor = some c := by
  unfold next at h
  split at h
  · rename_i hidle _
    simp [sleeps, sleepsOn, owesOne, owesAll, wasWoken, hidle]
  · rename_i r lastTry hawake
    cases h
    refine ⟨fun c => by simp [sleeps, sleepsOn, owesOne, owesAll, hawake], fun c hwoken => ?_⟩
    cases lastTry with
    | false => simpa [wasWoken, hawake] using hwoken
    | true => simp [wasWoken, hawake] at hwoken
  · cases h

/-- A thread whose request was served owes the wake-up that is due for it. -/
theorem leaving {w : Option WakeUp} (h : t.activity = afterwards w) (c : Awaited) :
    sleeps c t = false ∧ wasWoken c t = false ∧ owesOne c t = decide (w = some (.one c)) ∧
      owesAll c t = decide (w = some (.all c)) := by
  rcases w with _ | d | d <;>
    simp [sleeps, sleepsOn, wasWoken, owesOne, owesAll, h, afterwards]

theorem rouse_of_sleeps (h : sleepsOn t = some c) :
    ∃ r, t.activity = .asleep r ∧ r.waitsFor = some c ∧
      rouse c t = { t with activity := .awake r false } := by
  unfold sleepsOn at h
  split at h
  · rename_i r hasleep
    exact ⟨r, hasleep, h, by rw [rouse, hasleep]; exact if_pos h⟩
  · cases h

theorem rouse_of_not_sleeps (h : sleepsOn t ≠ some c) : rouse c t = t := by
  unfold sleepsOn at h
  unfold rouse
  split
  · rename_i r hasleep
    rw [hasleep] at h
    exact if_neg h
  · rfl

/-- Whoever is about to wake others does not sleep, so that what it does next changes no
sleeper. -/
theorem getElem?_set_of_sleeps {threads : List (Thread α)} {i j : Nat} {s : Thread α} {w : WakeUp}
    (ht : threads[i]? = some t) (hwaking : t.activity = .waking w) (hs : threads[j]? = some s)
    (hsleeps : sleepsOn s = some c) (t' : Thread α) : (threads.set i t')[j]? = some s := by
  have hij : i ≠ j := by
    rintro rfl
    cases ht.symm.trans hs
    simp [sleepsOn, hwaking] at hsleeps
  rw [List.getElem?_set_ne hij, hs]

end

/-! ## Everybody asleep is covered -/

/-- Whoever sleeps on `c` is covered: the queue can serve no more of them than there
are wake-ups due and threads woken, unless a wake-up for all is due. -/
def Covers (m : Monitor α) (c : Awaited) : Prop :=
  0 < m.threads.countP (sleeps c) → 0 < m.threads.countP (owesAll c) ∨
    c.supply m.queue ≤ m.threads.countP (owesOne c) + m.threads.countP (wasWoken c)

/-- Nobody sleeps for nothing. -/
structure Covered (m : Monitor α) : Prop where
  covers : ∀ c, m.Covers c
  /-- Those who wait for elements are woken one by one. -/
  singly : m.threads.countP (owesAll .notEmpty) = 0

section
variable {c : Awaited}

theorem covers_of_supply (h : c.supply m.queue = 0) : m.Covers c :=
  fun _ => .inr (h ▸ Nat.zero_le _)

theorem covers_of_nobody (h : m.threads.countP (sleeps c) = 0) : m.Covers c :=
  fun hsome => absurd hsome (by rw [h]; exact Nat.lt_irrefl 0)

/-- What is taken from the wake-ups the queue has less. -/
theorem Covers.of_counts (hm : m.Covers c)
    (hsleeps : m'.threads.countP (sleeps c) ≤ m.threads.countP (sleeps c))
    (hall : m.threads.countP (owesAll c) ≤ m'.threads.countP (owesAll c))
    (hsum : c.supply m'.queue + (m.threads.countP (owesOne c) + m.threads.countP (wasWoken c)) ≤
      c.supply m.queue + (m'.threads.countP (owesOne c) + m'.threads.countP (wasWoken c))) :
    m'.Covers c := by
  intro hsome
  rcases hm (Nat.lt_of_lt_of_le hsome hsleeps) with hdue | hdue
  · exact .inl (Nat.lt_of_lt_of_le hdue hall)
  · exact .inr (by omega)

/-- One thread goes on, and the queue may change. -/
theorem Covers.set (hm : m.Covers c) {i : Nat} {t t' : Thread α} {queue : BoundedQueue α}
    (ht : m.threads[i]? = some t) (hsleeps : sleeps c t' = true → sleeps c t = true)
    (hall : owesAll c t = true → owesAll c t' = true)
    (hsum : c.supply queue + (owesOne c t).toNat + (wasWoken c t).toNat ≤
      c.supply m.queue + (owesOne c t').toNat + (wasWoken c t').toNat) :
    Covers { queue, threads := m.threads.set i t' } c := by
  have hsleepers := countP_set ht t' (sleeps c)
  have halls := countP_set ht t' (owesAll c)
  have hones := countP_set ht t' (owesOne c)
  have hwoken := countP_set ht t' (wasWoken c)
  have hsleeps : (sleeps c t').toNat ≤ (sleeps c t).toNat :=
    Bool.toNat_le_toNat (Bool.le_iff_imp.mpr hsleeps)
  have hall : (owesAll c t).toNat ≤ (owesAll c t').toNat :=
    Bool.toNat_le_toNat (Bool.le_iff_imp.mpr hall)
  exact hm.of_counts (by dsimp only; omega) (by dsimp only; omega) (by dsimp only; omega)

end

/-! ## Every move keeps everybody covered -/

section
variable {i : Nat} {t : Thread α}

/-- One thread goes on, and does not owe a wake-up to all who wait for elements. -/
theorem Covered.singly_set (hm : m.Covered) {t' : Thread α} (ht : m.threads[i]? = some t)
    (hnot : owesAll .notEmpty t' = false) :
    (m.threads.set i t').countP (owesAll .notEmpty) = 0 := by
  have halls := countP_set ht t' (owesAll .notEmpty)
  rw [hm.singly, hnot, Bool.toNat_false] at halls
  exact Nat.eq_zero_of_add_eq_zero_right halls

theorem Covered.slept (hm : m.Covered) {r : QueueRequest α} {lastTry : Bool}
    {rest : List (QueueRequest α)} (ht : m.threads[i]? = some t)
    (hnext : next t = some (r, lastTry, rest)) (hwaits : m.queue.attempt lastTry r = none) :
    Covered { m with
      threads := m.threads.set i { t with requests := rest, activity := .asleep r } } := by
  obtain ⟨hnot, hwoken⟩ := entering hnext
  obtain ⟨d, hd, hnothing⟩ := BoundedQueue.attempt_none hwaits
  refine ⟨fun c => ?_, ?_⟩
  · by_cases hcd : d = c
    · subst hcd
      exact covers_of_supply hnothing
    · have hne : r.waitsFor ≠ some c := by simpa [hd] using hcd
      have hwoken : wasWoken c t = false := by
        rw [← Bool.not_eq_true]
        exact fun h => hne (hwoken c h)
      refine (hm.covers c).set ht ?_ ?_ ?_
      · simp [sleeps_of_asleep, hne]
      · simp [(hnot c).2.2]
      · rw [hwoken, (hnot c).2.1]
        exact Nat.le_add_right_of_le (Nat.le_add_right ..)
  · exact hm.singly_set ht rfl

theorem Covered.served (hm : m.Covered) {r : QueueRequest α} {lastTry : Bool}
    {rest : List (QueueRequest α)} {queue : BoundedQueue α} {outcome : QueueOutcome α}
    {t' : Thread α} (ht : m.threads[i]? = some t) (hnext : next t = some (r, lastTry, rest))
    (hserved : m.queue.Served lastTry r queue outcome)
    (ht' : t'.activity = afterwards (r.wakeUp outcome)) :
    Covered { queue, threads := m.threads.set i t' } := by
  obtain ⟨hnot, hwoken⟩ := entering hnext
  refine ⟨fun c => ?_, ?_⟩
  · obtain ⟨hawake, hnotwoken, hone, hall⟩ := leaving ht' c
    rcases hserved.supply_le c with hdue | hsupply
    · -- a wake-up for all covers everybody
      intro _
      left
      have halls := countP_set ht t' (owesAll c)
      rw [hall, hdue, (hnot c).2.2] at halls
      simp at halls
      dsimp only
      omega
    · rcases Nat.eq_zero_or_pos (c.supply queue) with hnothing | hsome
      · exact covers_of_supply hnothing
      · have hones : (owesOne c t').toNat = if r.wakeUp outcome = some (.one c) then 1 else 0 := by
          rw [hone]
          by_cases hdue : r.wakeUp outcome = some (.one c) <;> simp [hdue]
        refine (hm.covers c).set ht ?_ ?_ ?_
        · simp [hawake]
        · simp [(hnot c).2.2]
        · rw [(hnot c).2.1, hnotwoken, hones]
          cases hwas : wasWoken c t with
          | false => exact hsupply
          | true =>
            have htaken := hserved.supply_of_waitsFor (hwoken c hwas)
            simp only [Bool.toNat_true, Bool.toNat_false]
            omega
  · obtain ⟨-, -, -, hall⟩ := leaving ht' .notEmpty
    exact hm.singly_set ht (by simpa [hserved.wakeUp_ne_all] using hall)

/-- The time of a sleeper is over; no wake-up is used up for it. -/
theorem Covered.expired (hm : m.Covered) {r : QueueRequest α} (ht : m.threads[i]? = some t)
    (hasleep : t.activity = .asleep r) :
    Covered { m with threads := m.threads.set i { t with activity := .awake r true } } := by
  refine ⟨fun c => (hm.covers c).set ht ?_ ?_ ?_, ?_⟩
  · simp [sleeps, sleepsOn]
  · simp [owesAll, hasleep]
  · simp [owesOne, wasWoken, hasleep]
  · exact hm.singly_set ht rfl

/-- A wake-up finds nobody, so that nobody needs one. -/
theorem Covered.wokeNobody (hm : m.Covered) {c : Awaited} (ht : m.threads[i]? = some t)
    (hwaking : t.activity = .waking (.one c)) (hnone : ∀ s ∈ m.threads, sleepsOn s ≠ some c) :
    Covered { m with threads := m.threads.set i { t with activity := .idle } } := by
  refine ⟨fun d => ?_, ?_⟩
  · by_cases hd : c = d
    · subst hd
      refine covers_of_nobody ?_
      have hsleepers := countP_set ht { t with activity := .idle } (sleeps c)
      have hnobody : m.threads.countP (sleeps c) = 0 := by
        rw [List.countP_eq_zero]
        intro s hs
        simpa [sleeps] using hnone s hs
      simpa [hnobody, sleeps, sleepsOn, hwaking] using hsleepers
    · refine (hm.covers d).set ht ?_ ?_ ?_
      · simp [sleeps, sleepsOn]
      · simp [owesAll, hwaking]
      · simp [owesOne, wasWoken, hwaking, hd]
  · exact hm.singly_set ht rfl

/-- A wake-up for one goes over to the thread that it reaches. -/
theorem Covered.wokeOne (hm : m.Covered) {j : Nat} {s : Thread α} {c : Awaited}
    (ht : m.threads[i]? = some t) (hwaking : t.activity = .waking (.one c))
    (hs : m.threads[j]? = some s) (hsleeps : sleepsOn s = some c) :
    Covered { m with
      threads := (m.threads.set i { t with activity := .idle }).set j (rouse c s) } := by
  obtain ⟨r, hasleep, hwaits, hroused⟩ := rouse_of_sleeps hsleeps
  have hs' := getElem?_set_of_sleeps ht hwaking hs hsleeps { t with activity := .idle }
  have hfirst := countP_set ht { t with activity := .idle }
  have hsecond := countP_set hs' (rouse c s)
  rw [hroused] at hsecond ⊢
  refine ⟨fun d => (hm.covers d).of_counts ?_ ?_ ?_, ?_⟩
  · have h₁ := hfirst (sleeps d)
    have h₂ := hsecond (sleeps d)
    simp only [sleeps, sleepsOn, hwaking, reduceCtorEq, decide_false, Bool.toNat_false,
      Nat.add_zero] at h₁ h₂ ⊢
    omega
  · have h₁ := hfirst (owesAll d)
    have h₂ := hsecond (owesAll d)
    simp only [owesAll, hwaking, hasleep, Bool.toNat_false, Nat.add_zero] at h₁ h₂ ⊢
    exact Nat.le_of_eq (h₂.trans h₁).symm
  · have h₁ := hfirst (owesOne d)
    have h₂ := hsecond (owesOne d)
    have h₃ := hfirst (wasWoken d)
    have h₄ := hsecond (wasWoken d)
    simp only [owesOne, wasWoken, hwaking, hasleep, hwaits, Option.some.injEq, Bool.toNat_false,
      Nat.add_zero] at h₁ h₂ h₃ h₄ ⊢
    omega
  · have h₁ : (m.threads.set i { t with activity := .idle }).countP (owesAll .notEmpty) = 0 :=
      hm.singly_set ht rfl
    have h₂ := hsecond (owesAll .notEmpty)
    simp only [h₁, owesAll, hasleep, Bool.toNat_false, Nat.add_zero] at h₂ ⊢
    exact h₂

/-- What a wake-up for all leaves of a thread that it does not concern. -/
theorem countP_rouse {threads : List (Thread α)} {c : Awaited} {p : Thread α → Bool}
    (hp : ∀ (s : Thread α) (r : QueueRequest α), s.activity = .asleep r → r.waitsFor = some c →
      p { s with activity := .awake r false } = p s) :
    (threads.map (rouse c)).countP p = threads.countP p := by
  rw [List.countP_map]
  congr 1
  funext s
  rw [Function.comp_apply]
  by_cases hsleeps : sleepsOn s = some c
  · obtain ⟨r, hasleep, hwaits, hroused⟩ := rouse_of_sleeps hsleeps
    rw [hroused, hp s r hasleep hwaits]
  · rw [rouse_of_not_sleeps hsleeps]

theorem Covered.wokeAll (hm : m.Covered) {c : Awaited} (ht : m.threads[i]? = some t)
    (hwaking : t.activity = .waking (.all c)) :
    Covered { m with threads := (m.threads.set i { t with activity := .idle }).map (rouse c) } := by
  have halls (d : Awaited) :
      ((m.threads.set i { t with activity := .idle }).map (rouse c)).countP (owesAll d) =
        (m.threads.set i { t with activity := .idle }).countP (owesAll d) :=
    countP_rouse fun s r hasleep _ => by simp [owesAll, hasleep]
  refine ⟨fun d => ?_, ?_⟩
  · by_cases hd : c = d
    · subst hd
      refine covers_of_nobody ?_
      dsimp only
      rw [List.countP_map, List.countP_eq_zero]
      intro s _
      by_cases hsleeps : sleepsOn s = some c
      · obtain ⟨r, -, -, hroused⟩ := rouse_of_sleeps hsleeps
        simp [hroused, sleeps, sleepsOn]
      · simp [rouse_of_not_sleeps hsleeps, sleeps, hsleeps]
    · have hidle : Covers { m with threads := m.threads.set i { t with activity := .idle } } d := by
        refine (hm.covers d).set ht ?_ ?_ ?_
        · simp [sleeps, sleepsOn]
        · simp [owesAll, hwaking, hd]
        · simp [owesOne, wasWoken, hwaking]
      refine hidle.of_counts (Nat.le_of_eq ?_) (Nat.le_of_eq (halls d).symm) (Nat.le_of_eq ?_)
      · refine countP_rouse fun s r hasleep hwaits => ?_
        simp [sleeps, sleepsOn, hasleep, hwaits, hd]
      · dsimp only
        rw [countP_rouse (p := owesOne d) fun s r hasleep _ => by simp [owesOne, hasleep],
          countP_rouse (p := wasWoken d) fun s r hasleep hwaits => by
            simp [wasWoken, hasleep, hwaits, hd]]
  · exact (halls .notEmpty).trans (hm.singly_set ht rfl)

end

theorem Moved.covered {move : Move} (h : m.Moved move m') (hm : m.Covered) : m'.Covered := by
  cases h with
  | slept ht hnext hwaits => exact hm.slept ht hnext hwaits
  | served ht hnext hserved => exact hm.served ht hnext hserved rfl
  | wokeAll ht hwaking => exact hm.wokeAll ht hwaking
  | wokeNobody ht hwaking hnone => exact hm.wokeNobody ht hwaking hnone
  | wokeOne ht hwaking hs hsleeps => exact hm.wokeOne ht hwaking hs hsleeps
  | expired ht hasleep => exact hm.expired ht hasleep

/-- Whoever sleeps on what the queue has is covered by some thread's wake-up. -/
theorem Covered.onTheWay (hm : m.Covered) {c : Awaited} {t : Thread α} (ht : t ∈ m.threads)
    (hsleeps : sleepsOn t = some c) (hsupply : 0 < c.supply m.queue) :
    ∃ s ∈ m.threads, owesOne c s ∨ owesAll c s ∨ wasWoken c s := by
  have hsome : 0 < m.threads.countP (sleeps c) :=
    List.countP_pos_iff.mpr ⟨t, ht, by simpa [sleeps] using hsleeps⟩
  have hdue : 0 < m.threads.countP (owesAll c) ∨ 0 < m.threads.countP (owesOne c) ∨
      0 < m.threads.countP (wasWoken c) := by
    rcases hm.covers c hsome with hdue | hdue
    · exact .inl hdue
    · omega
  simp only [List.countP_pos_iff] at hdue
  rcases hdue with ⟨s, hs, hdue⟩ | ⟨s, hs, hdue⟩ | ⟨s, hs, hdue⟩
  · exact ⟨s, hs, .inr (.inl hdue)⟩
  · exact ⟨s, hs, .inl hdue⟩
  · exact ⟨s, hs, .inr (.inr hdue)⟩

/-- Between two requests nobody sleeps. -/
theorem covered_of_idle (h : ∀ t ∈ m.threads, t.activity = .idle) : m.Covered := by
  refine ⟨fun c => covers_of_nobody ?_, ?_⟩
  · rw [List.countP_eq_zero]
    intro t ht
    simp [sleeps, sleepsOn, h t ht]
  · rw [List.countP_eq_zero]
    intro t ht
    simp [owesAll, h t ht]

theorem Reaches.covered (h : m.Reaches m') (hm : m.Covered) : m'.Covered := by
  induction h with
  | refl => exact hm
  | step move _ hmove ih => exact (moved_of_move? hmove).covered ih

end Monitor
end SampleStream
