import Mathlib.Data.List.Forall2
import SampleStream.Proofs.Receive.Session

/-!
# Conditions are told once and in order

A call tells the condition that was kept for it, or else the one it meets before it has
samples; one that it meets later is kept for the next call. As a call with something kept
does nothing but tell it, there is never more than one condition kept, and the conditions
that calls meet are those that calls tell, in the same order, up to the one kept at the end,
each with its code, its channel and its time (`conditions_told_in_order`). That nothing came
in time is no condition in this sense.
-/

namespace SampleStream.Receive

/-- Whether a condition is one to be told, at once or later. That nothing came in time is
not. -/
def Condition.lasts (c : Condition) : Bool := c.code ≠ .timeout

/-- The metadata tell a condition: its code, its channel and its time, and nothing of
samples. -/
structure Condition.Names (c : Condition) (m : Metadata) : Prop where
  code : m.code = c.code
  channel : m.channel = c.channel
  time : m.time = c.time
  moreFragments : m.moreFragments = false
  fragmentOffset : m.fragmentOffset = 0
  startOfBurst : m.startOfBurst = false
  endOfBurst : m.endOfBurst = false
  outOfSequence : m.outOfSequence = false

theorem Condition.names_metadata (c : Condition) : c.Names c.metadata :=
  ⟨rfl, rfl, rfl, rfl, rfl, rfl, rfl, rfl⟩

/-- The conditions that a turn met when it took frames. -/
def Turn.conditions (t : Turn) : List Condition :=
  (t.events.filterMap (Event.condition t.before.order t.before.tickRate)).filter Condition.lasts

/-- The metadata of a turn that tells a condition: one was kept for it, or it met one without
samples. -/
def Turn.told (t : Turn) : Option Metadata :=
  if t.before.pending.isSome || (t.call.got.samples == 0 && t.met.any Condition.lasts) then
    some t.call.got.metadata
  else none

/-- Events end in the conditions there are among them. -/
theorem EndsIn.conditions {order : ByteOrder} {tickRate : Float} {es : List Event}
    {found : Option Condition} (h : EndsIn order tickRate es found) :
    (es.filterMap (Event.condition order tickRate)).filter Condition.lasts =
      (found.filter Condition.lasts).toList := by
  have hnone {es : List Event} (hes : ∀ e ∈ es, e.condition order tickRate = none) :
      es.filterMap (Event.condition order tickRate) = [] := List.filterMap_eq_nil_iff.mpr hes
  cases h with
  | nothing hes => simp [hnone hes]
  | late hes index => simp [hnone hes, Condition.lasts]
  | @met es e c hes hc =>
    rw [List.filterMap_append, hnone hes, List.nil_append, List.filterMap_cons_some hc]
    cases hlasts : c.lasts <;> simp [Option.filter, hlasts]

end SampleStream.Receive

namespace SampleStream.Receiver
open Receive

section
variable {r₀ r r' s : Receiver} {buffers : List Bytes} {wanted : Nat} {onePacket : Bool}
  {es : List Event} {shares : List Share} {met found : Option Condition} {got got' : Received}
  {call : Call} {actions : List Action} {turns : List Turn}

/-! ## Getting packets together keeps nothing for later -/

theorem fetch_pending {index : Nat} {c : Channel} (hc : r.channels[index]? = some c)
    (h : r.fetch index c = some (r', .ok found)) : r'.pending = r.pending := by
  cases hframes : c.link.frames with
  | nil =>
    rcases fetch_of_empty hc hframes h with hclosed | ⟨rfl, -⟩
    · cases hclosed
    · rfl
  | cons frame rest =>
    obtain ⟨_, -, htook⟩ := fetch_of_frame hframes h
    exact htook.pending

theorem fill_pending {indices : List Nat} (h : r.fill indices = some (r', .ok found)) :
    r'.pending = r.pending := by
  induction indices generalizing r with
  | nil =>
    cases h
    rfl
  | cons index rest ih =>
    unfold fill at h
    cases hc : r.channels[index]? with
    | none =>
      rw [hc] at h
      exact ih h
    | some c =>
      rw [hc] at h
      dsimp only at h
      split at h
      · exact ih h
      · obtain ⟨⟨r₁, outcome⟩, hfetch, h⟩ := Option.bind_eq_some_iff.mp h
        cases outcome with
        | error e => cases h
        | ok found₁ =>
          cases found₁ with
          | none => exact (ih h).trans (fetch_pending hc hfetch)
          | some condition =>
            cases h
            exact fetch_pending hc hfetch

theorem alignWithin_pending {rounds : Nat} (h : r.alignWithin rounds = some (r', .ok found)) :
    r'.pending = r.pending := by
  induction rounds using Nat.strongRecOn generalizing r with
  | ind rounds ih =>
    obtain ⟨r₁, found₁, hfill, hround⟩ := alignWithin_cases h
    have hsame := fill_pending hfill
    rcases hround with ⟨-, rfl, -⟩ | ⟨-, -, rfl, -⟩ | ⟨time, -, -, -, ⟨-, rfl, -⟩ | ⟨n, rfl, hrest⟩⟩
    · exact hsame
    · exact hsame
    · exact hsame
    · exact (ih n (Nat.lt_succ_self n) hrest).trans hsame

theorem Gathers.pending (h : r.Gathers es s found) : s.pending = r.pending := by
  have hready := h.ready
  unfold Receiver.ready at hready
  split at hready
  · exact alignWithin_pending hready
  · cases hready
    rfl

theorem Course.pending (h : Course r₀ buffers wanted onePacket es shares r got) :
    r.pending = r₀.pending := by
  induction h with
  | start => rfl
  | next _ hgathers _ _ _ _ _ ih => exact hgathers.pending.trans ih

/-! ## What a call meets -/

/-- The rounds of a call before the last one meet nothing. -/
theorem Course.quiet (h : Course r₀ buffers wanted onePacket es shares r got) :
    ∀ e ∈ es, e.condition r₀.order r₀.tickRate = none := by
  induction h with
  | start => simp
  | next h hgathers _ _ _ _ _ ih =>
    have hends := hgathers.ends.of_none
    rw [order_of_setup h.setup, tickRate_of_setup h.setup] at hends
    intro e he
    rcases List.mem_append.mp he with he | he
    · exact ih e he
    · rcases List.mem_append.mp he with he | he
      · exact hends e he
      · cases List.mem_singleton.mp he
        rfl

/-- What a call meets is the last thing that happens in it. -/
theorem Called.ends (h : Called r call es shares met r') : EndsIn r.order r.tickRate es met := by
  cases h with
  | told => exact .nothing (by simp)
  | took _ _ hcourse hends =>
    have hquiet := hcourse.quiet
    rw [← order_of_setup hcourse.setup, ← tickRate_of_setup hcourse.setup] at hquiet ⊢
    generalize call.got = answer at hends
    cases hends with
    | met hgathers => exact hgathers.ends.after hquiet
    | gap hgathers => exact hgathers.ends.after hquiet
    | last hgathers =>
      refine EndsIn.after (.nothing fun e he => ?_) hquiet
      rcases List.mem_append.mp he with he | he
      · exact hgathers.ends.of_none e he
      · cases List.mem_singleton.mp he
        rfl

/-! ## What a call tells -/

/-- What a turn does with conditions. -/
structure Reports (t : Turn) : Prop where
  /-- What was kept for the turn is all that it tells, and it does nothing else. -/
  kept : ∀ m, t.before.pending = some m →
    t.call.got = { metadata := m, buffers := t.call.buffers } ∧ t.events = [] ∧ t.shares = [] ∧
      t.met = none ∧ t.after = { t.before with pending := none }
  /-- What the turn meets is the last thing that happens in it. -/
  ends : EndsIn t.before.order t.before.tickRate t.events t.met
  /-- A condition met without samples is told at once. -/
  atOnce : ∀ c, t.met = some c → t.call.got.samples = 0 →
    c.Names t.call.got.metadata ∧ t.after.pending = none
  /-- One met after samples is kept and leaves what is told of them. -/
  later : ∀ c, t.met = some c → 0 < t.call.got.samples →
    (if c.lasts then ∃ m, t.after.pending = some m ∧ c.Names m else t.after.pending = none) ∧
      Calm t.call.got.metadata ∧ t.before.Tells (describedIn t.shares) t.call.got.metadata
  /-- Nothing else is kept, and without a condition none is told but a gap. -/
  nothing : t.met = none → t.after.pending = none ∧
    (t.before.pending = none → t.call.got.metadata.code =
      if t.call.got.metadata.outOfSequence then .overflow else .none)

/-- What is kept after the last round of a call. -/
theorem Ends.pending {c : Condition} (h : Ends wanted onePacket s got es shares met r' got')
    (hnone : s.pending = none) (hc : met = some c) :
    (got'.samples = 0 → c.Names got'.metadata ∧ r'.pending = none) ∧
      (0 < got'.samples → got' = got ∧
        if c.lasts then ∃ m, r'.pending = some m ∧ c.Names m else r'.pending = none) := by
  cases h with
  | gap | last => cases hc
  | met hgathers hreport =>
    cases hc
    rw [← hgathers.pending] at hnone
    rcases report_cases hreport with ⟨hzero, rfl, rfl⟩ | ⟨hsome, rfl, rfl⟩
    · exact ⟨fun _ => ⟨c.names_metadata, hnone⟩,
        fun hsome => absurd hsome (Nat.not_lt.mpr hzero.le)⟩
    · refine ⟨fun hzero => absurd hsome (Nat.not_lt.mpr hzero.le), fun _ => ⟨rfl, ?_⟩⟩
      by_cases hlasts : c.lasts = true
      · rw [if_pos hlasts]
        refine ⟨c.metadata, ?_, c.names_metadata⟩
        simp_all [Condition.lasts]
      · rw [if_neg hlasts]
        simp_all [Condition.lasts]

/-- Without a condition nothing is kept, and none is told but a gap. -/
theorem Ends.nothing (h : Ends wanted onePacket s got es shares none r' got')
    (hnone : s.pending = none) (hcalm : Calm got.metadata) :
    r'.pending = none ∧
      got'.metadata.code = if got'.metadata.outOfSequence then .overflow else .none := by
  cases h with
  | gap hgathers => exact ⟨hgathers.pending.trans hnone, hcalm.code⟩
  | @last _ s' n metadata _ hgathers hhands =>
    obtain ⟨mode, hfinish⟩ := finish_eq s' n
    obtain ⟨hbegun, -⟩ := hhands.begun (hgathers.full rfl) hcalm
    refine ⟨?_, ?_⟩
    · rw [hfinish]
      exact hgathers.pending.trans hnone
    · rw [code_lastMetadata, outOfSequence_lastMetadata]
      exact hbegun.code

theorem Called.reports {t : Turn}
    (h : Called t.before t.call t.events t.shares t.met t.after) : Reports t := by
  obtain ⟨before, call, events, shares, met, after⟩ := t
  have hends := h.ends
  have htells := fun hsome => h.tells hsome
  dsimp only at h hends htells
  cases h with
  | told hpending hgot =>
    refine ⟨fun m hm => ?_, hends, nofun, nofun, fun _ => ⟨rfl, fun hnone => ?_⟩⟩
    · cases hpending.symm.trans hm
      exact ⟨hgot, rfl, rfl, rfl, rfl⟩
    · cases hpending.symm.trans hnone
  | took hpending _ hcourse hlast =>
    have hnone := hcourse.pending.trans hpending
    refine ⟨fun m hm => ?_, hends, fun c hc => (hlast.pending hnone hc).1, fun c hc hsome => ?_,
      fun hmet => ?_⟩
    · cases hpending.symm.trans hm
    · obtain ⟨hgot, hkept⟩ := (hlast.pending hnone hc).2 hsome
      exact ⟨hkept, hgot ▸ hcourse.calm, htells hsome⟩
    · dsimp only at hmet
      subst hmet
      obtain ⟨hkept, hcode⟩ := hlast.nothing hnone hcourse.calm
      exact ⟨hkept, fun _ => hcode⟩

/-- A turn tells what was kept for it, and what it meets it tells or keeps. -/
theorem Reports.told {t : Turn} (h : Reports t) :
    ∃ named, List.Forall₂ Condition.Names t.conditions named ∧
      t.before.pending.toList ++ named = t.told.toList ++ t.after.pending.toList := by
  rw [Turn.conditions, h.ends.conditions]
  cases hpending : t.before.pending with
  | some m =>
    obtain ⟨hgot, -, -, hmet, hafter⟩ := h.kept m hpending
    refine ⟨[], ?_, ?_⟩
    · rw [hmet]
      exact .nil
    · simp [Turn.told, hpending, hgot, hafter]
  | none =>
    cases hmet : t.met with
    | none => exact ⟨[], .nil, by simp [Turn.told, hpending, hmet, (h.nothing hmet).1]⟩
    | some c =>
      rcases Nat.eq_zero_or_pos t.call.got.samples with hzero | hsome
      · obtain ⟨hnames, hafter⟩ := h.atOnce c hmet hzero
        cases hlasts : c.lasts with
        | false =>
          exact ⟨[], by simp [Option.filter, hlasts],
            by simp [Turn.told, hpending, hmet, hlasts, hafter]⟩
        | true =>
          exact ⟨[t.call.got.metadata], by simp [Option.filter, hlasts, hnames],
            by simp [Turn.told, hpending, hmet, hzero, hlasts, hafter]⟩
      · have hkept := (h.later c hmet hsome).1
        have hne : t.call.got.samples ≠ 0 := Nat.ne_of_gt hsome
        cases hlasts : c.lasts with
        | false =>
          rw [if_neg (by simp [hlasts])] at hkept
          exact ⟨[], by simp [Option.filter, hlasts],
            by simp [Turn.told, hpending, hne, hkept]⟩
        | true =>
          rw [if_pos hlasts] at hkept
          obtain ⟨m, hafter, hnames⟩ := hkept
          exact ⟨[m], by simp [Option.filter, hlasts, hnames],
            by simp [Turn.told, hpending, hne, hafter]⟩

/-- The metadata of a turn are of the condition that it tells; without one they name at most
that nothing came in time or a gap. -/
theorem Reports.metadata {t : Turn} (h : Reports t) :
    (∀ m, t.told = some m → t.call.got.samples = 0 ∧ t.call.got.metadata = m) ∧
      (t.told = none → t.call.got.metadata.code = .timeout ∨ t.call.got.metadata.code =
        if t.call.got.metadata.outOfSequence then .overflow else .none) := by
  cases hpending : t.before.pending with
  | some m =>
    have hgot := (h.kept m hpending).1
    simp [Turn.told, hpending, hgot]
  | none =>
    cases hmet : t.met with
    | none => simp [Turn.told, hpending, hmet, ← (h.nothing hmet).2 hpending]
    | some c =>
      rcases Nat.eq_zero_or_pos t.call.got.samples with hzero | hsome
      · have hnames := (h.atOnce c hmet hzero).1
        cases hcode : c.code <;>
          simp [Turn.told, Condition.lasts, hpending, hmet, hzero, hnames.code, hcode]
      · have hcalm := (h.later c hmet hsome).2.1
        have hne : t.call.got.samples ≠ 0 := Nat.ne_of_gt hsome
        simp [Turn.told, hpending, hne, ← hcalm.code]

/-! ## All calls of a session -/

theorem Logged.reports (h : Logged r₀ actions turns r) : ∀ t ∈ turns, Reports t := by
  intro t ht
  obtain ⟨_, _, -, hcalled⟩ := h.of_mem ht
  exact hcalled.reports

/-- What is kept after the last turn. -/
theorem Logged.pending_last (h : Logged r₀ actions turns r) {before : List Turn} {t : Turn}
    (hturns : turns = before ++ [t]) : r.pending = t.after.pending := by
  induction h with
  | start => simp at hturns
  | aside _ haside ih => exact haside.alike.pending.trans (ih hturns)
  | call =>
    obtain ⟨-, hsame⟩ := List.append_inj' hturns rfl
    cases hsame
    rfl

/-- What a turn keeps is there for the next one. -/
theorem Logged.pending_next (h : Logged r₀ actions turns r) {before behind : List Turn}
    {t u : Turn} (hturns : turns = before ++ t :: u :: behind) :
    u.before.pending = t.after.pending := by
  rw [← List.singleton_append, ← List.append_assoc] at hturns
  obtain ⟨_, hlogged, -⟩ := h.turn hturns
  exact hlogged.pending_last rfl

/-- The conditions met are those that were told and the one kept. -/
theorem Logged.conditions (h : Logged r₀ actions turns r) (hpending : r₀.pending = none) :
    List.Forall₂ Condition.Names (turns.flatMap Turn.conditions)
      (turns.filterMap Turn.told ++ r.pending.toList) := by
  induction h with
  | start => simp [hpending]
  | aside _ haside ih =>
    rw [haside.alike.pending]
    exact ih
  | call _ _ hcalled ih =>
    obtain ⟨named, hnamed, hsame⟩ := hcalled.reports.told
    rw [List.flatMap_append, List.flatMap_singleton, filterMap_concat, List.append_assoc, ← hsame,
      ← List.append_assoc]
    exact List.rel_append ih hnamed

/-- What is kept for the next call is a condition. -/
theorem Logged.pending_condition (h : Logged r₀ actions turns r) (hnone : r₀.pending = none)
    {m : Metadata} (hm : r.pending = some m) : ∃ condition : Condition, condition.Names m := by
  have hall := h.conditions hnone
  rw [hm] at hall
  have hlast := List.forall₂_drop_append _ _ _ hall
  obtain ⟨condition, -, hnames, -⟩ := List.forall₂_cons_right_iff.mp hlast
  exact ⟨condition, hnames⟩

/-- In every session the conditions other than that nothing came in time that the calls
meet are those that the calls tell, in the same order, and the one kept at the end, if there
is one; the metadata told or kept name each by its code, its channel and its time. A call with
something kept only tells that; the others tell what they meet without samples, and keep what
they meet after samples. So nothing kept is lost, and as a condition is the last thing that
happens in a call, and nothing happens in the call that tells one that was kept, no frame is
taken between a condition and the end of the call that tells it; the samples of a call are all
in frames taken by then. -/
theorem conditions_told_in_order {o : StreamOptions} {settings : Settings} {links : List Link}
    (hbuilt : Built o settings links r₀) (hsession : Session r₀ actions r) :
    ∃ turns, Logged r₀ actions turns r ∧ turns.map Turn.call = callsOf actions ∧
      List.Forall₂ Condition.Names (turns.flatMap Turn.conditions)
        (turns.filterMap Turn.told ++ r.pending.toList) ∧
      (∀ t ∈ turns, Reports t ∧ Returns r₀ t ∧
        (∀ m, t.told = some m → t.call.got.samples = 0 ∧ t.call.got.metadata = m) ∧
        (t.told = none → t.call.got.metadata.code = .timeout ∨ t.call.got.metadata.code =
          if t.call.got.metadata.outOfSequence then .overflow else .none)) ∧
      (∀ before t u behind, turns = before ++ t :: u :: behind →
        u.before.pending = t.after.pending) ∧
      (∀ index c₀, r₀.channels[index]? = some c₀ → ∃ c, r.channels[index]? = some c ∧
        c₀.link.frames ++ arrivals index actions = takenIn index turns ++ c.link.frames) ∧
      (∀ before t behind, turns = before ++ t :: behind → ∀ s ∈ t.shares, ∀ index p,
        s.held[index]? = some p →
          ∃ frame ∈ takenIn index (before ++ [t]),
            packetOf r₀.order frame = some p.part.packet) := by
  have hsettled := settled_of_fresh hbuilt.fresh
  obtain ⟨turns, hlogged⟩ := hsession.logged hsettled hbuilt.channels_ne_nil
  exact ⟨turns, hlogged, hlogged.calls, hlogged.conditions hbuilt.pending,
    fun t ht => ⟨hlogged.reports t ht, hlogged.returns hbuilt.fresh t ht,
      (hlogged.reports t ht).metadata⟩,
    fun _ _ _ _ hturns => hlogged.pending_next hturns,
    fun _ _ hc₀ => hlogged.frames hsettled hc₀,
    fun _ _ _ hturns _ hs _ _ hp => hlogged.sources hbuilt.fresh hturns hs hp⟩

end

/-- One sample. -/
def oneSampleFrame : Bytes := [0x10, 0, 0, 3, 0, 0, 0, 0, 0, 1, 0, 2]

/-- A report of time 7 that a command came too late. -/
def lateCommandFrame : Bytes :=
  [0x40, 0x10, 0, 5, 0, 0, 0, 1, 0, 0, 0, 0, 0, 0, 0, 7, 0, 0, 0, 2]

/-- The first call returns the sample, the second one tells the report that was kept for it,
with its time, and the third one tells at once of a frame that cannot be read. -/
theorem conditions_told_in_order_later :
    let buffers := [List.replicate 8 0]
    ∃ actions r, ∃ turns : List Turn,
      oneChannel.actAll [.came 0 oneSampleFrame, .came 0 lateCommandFrame, .came 0 [0],
        .call buffers 2 false, .call buffers 2 false, .call buffers 2 false] =
          some (actions, r) ∧
      Session oneChannel actions r ∧
      (callsOf actions).map (fun call => (call.got.samples, call.got.metadata.code,
          call.got.metadata.time.isSome)) =
        [(1, .none, false), (0, .lateCommand, true), (0, .badPacket, false)] ∧
      turns.map Turn.call = callsOf actions ∧
      List.Forall₂ Condition.Names (turns.flatMap Turn.conditions)
        (turns.filterMap Turn.told ++ r.pending.toList) := by
  intro buffers
  let told (a : List Action × Receiver) : List (Nat × Code × Bool) :=
    (callsOf a.1).map fun call =>
      (call.got.samples, call.got.metadata.code, call.got.metadata.time.isSome)
  have hseen : (oneChannel.actAll [.came 0 oneSampleFrame, .came 0 lateCommandFrame, .came 0 [0],
      .call buffers 2 false, .call buffers 2 false, .call buffers 2 false]).map told =
        some [(1, .none, false), (0, .lateCommand, true), (0, .badPacket, false)] := by
    decide +kernel
  obtain ⟨actions, r, hact, hrun, -, htold⟩ := exists_of_actAll hseen
  have hsession : Session oneChannel actions r := .run .start hrun
  obtain ⟨turns, -, hcalls, hconditions, -⟩ := conditions_told_in_order built_oneChannel hsession
  exact ⟨actions, r, turns, hact, hsession, htold, hcalls, hconditions⟩

end SampleStream.Receiver
