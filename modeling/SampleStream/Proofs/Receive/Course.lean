import Mathlib.Algebra.Order.BigOperators.Group.List
import Mathlib.Algebra.Order.Group.Nat
import SampleStream.Proofs.Receive.Run

/-!
# The course of a call

A call that returns goes through rounds that each hand out a share and use a packet up
(`Course`), and is over with one more (`Ends`): something else than samples was met, a gap
has to wait, or the last share was handed out. `recv_called` says that every call that
returns took such a course; its rounds are never too few, since there are more of them than
packets to use up.
-/

namespace SampleStream.Receive

/-! ## Shares -/

/-- What a round hands out: as many samples of every packet held, of which there is one for
each channel. The packets are as they were before. -/
structure Share where
  held : List HeldPacket
  count : Nat

/-- The samples of every channel in shares. -/
def samplesIn (shares : List Share) : Nat := (shares.map Share.count).sum

/-- The shares up to the first that has samples. -/
def leading : List Share → List Share
  | [] => []
  | s :: rest => if s.count = 0 then s :: leading rest else [s]

@[simp] theorem samplesIn_nil : samplesIn [] = 0 := rfl

@[simp] theorem samplesIn_append (shares shares' : List Share) :
    samplesIn (shares ++ shares') = samplesIn shares + samplesIn shares' := by
  simp [samplesIn]

@[simp] theorem samplesIn_singleton (s : Share) : samplesIn [s] = s.count := by
  simp [samplesIn]

theorem samplesIn_eq_zero {shares : List Share} :
    samplesIn shares = 0 ↔ ∀ s ∈ shares, s.count = 0 := by
  simp [samplesIn, List.sum_eq_zero_iff]

theorem mem_of_mem_leading {shares : List Share} {s : Share} (h : s ∈ leading shares) :
    s ∈ shares := by
  induction shares with
  | nil => exact h
  | cons s' rest ih =>
    rw [leading] at h
    split at h
    · rcases List.mem_cons.mp h with rfl | h
      · exact List.mem_cons_self
      · exact List.mem_cons_of_mem _ (ih h)
    · cases List.mem_singleton.mp h
      exact List.mem_cons_self

theorem leading_append_of_zero {shares : List Share} (h : samplesIn shares = 0)
    (shares' : List Share) : leading (shares ++ shares') = shares ++ leading shares' := by
  rw [samplesIn_eq_zero] at h
  induction shares with
  | nil => rfl
  | cons s rest ih =>
    have hs : s.count = 0 := h s List.mem_cons_self
    rw [List.cons_append, leading, if_pos hs, ih fun s' hs' => h s' (List.mem_cons_of_mem _ hs'),
      List.cons_append]

theorem leading_append_of_pos {shares : List Share} (h : 0 < samplesIn shares)
    (shares' : List Share) : leading (shares ++ shares') = leading shares := by
  induction shares with
  | nil => exact absurd h (Nat.lt_irrefl 0)
  | cons s rest ih =>
    rw [List.cons_append, leading, leading]
    split
    · rename_i hs
      have hrest : 0 < samplesIn rest := by
        simpa [samplesIn, hs] using h
      rw [ih hrest]
    · rfl

/-- The shares without samples, the first with samples, and those behind it. -/
theorem exists_leading {shares : List Share} (h : 0 < samplesIn shares) :
    ∃ passed s rest, shares = passed ++ s :: rest ∧ (∀ x ∈ passed, x.count = 0) ∧ 0 < s.count ∧
      leading shares = passed ++ [s] := by
  induction shares with
  | nil => exact absurd h (Nat.lt_irrefl 0)
  | cons s rest ih =>
    by_cases hs : s.count = 0
    · have hrest : 0 < samplesIn rest := by
        simpa [samplesIn, hs] using h
      obtain ⟨passed, s', rest', rfl, hpassed, hs', hleading⟩ := ih hrest
      refine ⟨s :: passed, s', rest', rfl, ?_, hs', ?_⟩
      · simpa [hs] using hpassed
      · rw [leading, if_pos hs, hleading, List.cons_append]
    · refine ⟨[], s, rest, rfl, by simp, Nat.pos_of_ne_zero hs, ?_⟩
      rw [leading, if_neg hs, List.nil_append]

/-! ## What is left to come -/

/-- Frames in flight to a channel and the packet it holds. -/
def Channel.backlog (c : Channel) : Nat := c.link.frames.length + c.held.toList.length

namespace Channel

theorem backlog_vacant_le (c : Channel) :
    ({ c with held := none } : Channel).backlog ≤ c.backlog :=
  Nat.le_add_right _ _

/-- A frame that is taken becomes a packet at most. -/
theorem Moved.backlog_le {order : ByteOrder} {wireItem index : Nat} {tickRate : Float}
    {e : Event} {c c' : Channel} (h : Moved order wireItem tickRate index e c c')
    (hgathers : e.gathers = true) : c'.backlog ≤ c.backlog := by
  cases h with
  | came | closed | handed | came_elsewhere | closed_elsewhere => cases hgathers
  | took hvacant hlink htaken =>
    have hone : c'.held.toList.length ≤ 1 := by cases c'.held <;> simp
    simp only [backlog, htaken.link, hlink, hvacant, List.length_cons]
    simp only [Option.toList_none, List.length_nil]
    omega
  | outdated time =>
    unfold dropIf
    split
    · exact c.backlog_vacant_le
    · exact Nat.le_refl _
  | misaligned => exact c.backlog_vacant_le
  | took_elsewhere => exact Nat.le_refl _

theorem backlog_advance_le (c : Channel) (n : Nat) : (c.advance n).1.backlog ≤ c.backlog := by
  cases hheld : c.held with
  | none =>
    rw [advance, hheld]
  | some p =>
    by_cases hused : (p.advance n).remaining = 0
    · rw [advance_of_used hheld hused]
      exact c.backlog_vacant_le
    · rw [advance_of_left hheld hused]
      simp [backlog, hheld]

/-- A packet that is used up is not to come any more. -/
theorem backlog_advance_lt {c : Channel} {n : Nat} (h : (c.advance n).2.isSome) :
    (c.advance n).1.backlog < c.backlog := by
  cases hheld : c.held with
  | none => simp [advance, hheld] at h
  | some p =>
    by_cases hused : (p.advance n).remaining = 0
    · rw [advance_of_used hheld hused]
      simp [backlog, hheld]
    · simp [advance_of_left hheld hused] at h

end Channel
end SampleStream.Receive

namespace SampleStream.Receiver
open Receive

section
variable {r r' : Receiver} {es : List Event}

theorem Step.backlog_le {e : Event} (h : Step r e r') (hgathers : e.gathers = true) :
    r'.backlog ≤ r.backlog := by
  have hlength := h.history.length_channels
  have hall : List.Forall₂ (· ≤ ·) (r'.channels.map Channel.backlog)
      (r.channels.map Channel.backlog) := by
    rw [List.forall₂_iff_get]
    refine ⟨by simp [hlength], fun i hi' hi => ?_⟩
    rw [List.length_map] at hi
    obtain ⟨c', hc', hmoved⟩ := h.moved (List.getElem?_eq_getElem hi)
    obtain ⟨hlt, rfl⟩ := List.getElem?_eq_some_iff.mp hc'
    simpa using hmoved.backlog_le hgathers
  exact hall.sum_le_sum

theorem History.backlog_le (h : History r es r') (hgathers : ∀ e ∈ es, e.gathers = true) :
    r'.backlog ≤ r.backlog := by
  induction h with
  | refl => exact Nat.le_refl _
  | step _ hstep ih =>
    have hearlier := ih fun e he => hgathers e (List.mem_append_left _ he)
    exact Nat.le_trans (hstep.backlog_le (hgathers _ (by simp))) hearlier
  | aside _ _ _ _ ih => exact ih hgathers

/-- Packets that are used up are not to come any more. -/
theorem backlog_advance_lt {n : Nat} (h : (r.advance n).2 ≠ none) :
    (r.advance n).1.backlog < r.backlog := by
  have hused : ∃ c ∈ r.channels, (c.advance n).2.isSome := by
    rw [advance, Ne, List.getLast?_eq_none_iff, List.filterMap_eq_nil_iff] at h
    simp only [List.mem_map, forall_exists_index, and_imp, forall_apply_eq_imp_iff₂,
      not_forall] at h
    obtain ⟨c, hc, hsome⟩ := h
    exact ⟨c, hc, Option.isSome_iff_ne_none.mpr hsome⟩
  obtain ⟨c, hc, hsome⟩ := hused
  rw [backlog, advance, List.map_map, List.map_map]
  exact List.sum_lt_sum _ _ (fun c _ => c.backlog_advance_le n)
    ⟨c, hc, Channel.backlog_advance_lt hsome⟩

/-- A call that goes on has used a packet up. -/
theorem Hands.used {wanted n : Nat} {got : Received} {metadata : Metadata} {filled : List Bytes}
    (h : r.Hands wanted got n metadata filled) (hwanted : got.samples + n ≠ wanted)
    (hbound : got.samples ≤ wanted) : (r.advance n).2 ≠ none := by
  obtain ⟨remaining, hleast, hn⟩ := h.count
  obtain ⟨hmem, -⟩ := List.min?_eq_some_iff.mp hleast
  obtain ⟨p, hp, hremaining⟩ := List.mem_map.mp hmem
  obtain ⟨c, hc, hheld⟩ := List.mem_filterMap.mp hp
  have hall : n = p.remaining := by omega
  have hused : (p.advance n).remaining = 0 := by
    rw [hall]
    simp only [HeldPacket.remaining, HeldPacket.advance]
    omega
  rw [advance, Ne, List.getLast?_eq_none_iff, List.filterMap_eq_nil_iff]
  intro hnone
  have hlast := hnone _ (List.mem_map_of_mem hc)
  rw [Channel.advance_of_used hheld hused] at hlast
  cases hlast

end

/-! ## Courses -/

/-- Packets were got together, as far as `found`, and that left the stream as `s`. -/
structure Gathers (r : Receiver) (es : List Event) (s : Receiver) (found : Option Condition) :
    Prop where
  ready : r.ready = some (s, .ok found)
  history : History r es s
  gathers : ∀ e ∈ es, e.gathers = true
  ends : EndsIn r.order r.tickRate es found
  settled : s.Settled
  full : found = none → s.Full

theorem gathers_of_ready {r s : Receiver} {found : Option Condition} (hsettled : r.Settled)
    (h : r.ready = some (s, .ok found)) : ∃ es, r.Gathers es s found := by
  obtain ⟨es, hhistory, hgathers, hsettled', hends, hfull⟩ := ready_history hsettled h
  exact ⟨es, h, hhistory, hgathers, hends, hsettled', fun hnone => (hfull hnone).1⟩

/-- A call up to one of its rounds, at the stream `r` and with `got` by then. Each round
before handed out a share, used a packet up that does not end a burst, and left more to be
wanted. -/
inductive Course (r₀ : Receiver) (buffers : List Bytes) (wanted : Nat) (onePacket : Bool) :
    List Event → List Share → Receiver → Received → Prop where
  | start : Course r₀ buffers wanted onePacket [] [] r₀ { buffers }
  | next {es es' : List Event} {shares : List Share} {r s : Receiver} {got : Received} {n : Nat}
    {metadata : Metadata} {filled : List Bytes}
    (h : Course r₀ buffers wanted onePacket es shares r got) (hgathers : r.Gathers es' s none)
    (hhands : s.Hands wanted got n metadata filled) (hused : (s.advance n).2 = some false)
    (hone : onePacket = false) (hnogap : s.held.any HeldPacket.outOfSequence = false)
    (hwanted : got.samples + n ≠ wanted) :
    Course r₀ buffers wanted onePacket (es ++ (es' ++ [.handed n])) (shares ++ [⟨s.held, n⟩])
      (s.advance n).1 { samples := got.samples + n, metadata, buffers := filled }

/-- The stream after the last share of a call. -/
def finish (s : Receiver) (n : Nat) : Receiver :=
  if (s.advance n).2 = some true then (s.advance n).1.endBurst else (s.advance n).1

/-- The metadata after the last share of a call: whether it ended a burst, or did not use
its packets up. -/
def lastMetadata (used : Option Bool) (m : Metadata) : Metadata :=
  match used with
  | some true => { m with endOfBurst := true }
  | some false => m
  | none => { m with moreFragments := true }

/-- The last round of a call. -/
inductive Ends (wanted : Nat) (onePacket : Bool) (r : Receiver) (got : Received) :
    List Event → List Share → Option Condition → Receiver → Received → Prop where
  /-- Something else than samples was met. -/
  | met {es : List Event} {s r' : Receiver} {c : Condition} {got' : Received}
    (hgathers : r.Gathers es s (some c)) (hreport : s.report c got = (r', .ok got')) :
    Ends wanted onePacket r got es [] (some c) r' got'
  /-- There are samples, and a gap has to wait. -/
  | gap {es : List Event} {s : Receiver} (hgathers : r.Gathers es s none)
    (hsome : 0 < got.samples) (hgap : s.held.any HeldPacket.outOfSequence = true) :
    Ends wanted onePacket r got es [] none s got
  /-- The last share was handed out. -/
  | last {es : List Event} {s : Receiver} {n : Nat} {metadata : Metadata} {filled : List Bytes}
    (hgathers : r.Gathers es s none) (hhands : s.Hands wanted got n metadata filled)
    (hlast : (s.advance n).2 = some true ∨ onePacket = true ∨
      s.held.any HeldPacket.outOfSequence = true ∨ got.samples + n = wanted) :
    Ends wanted onePacket r got (es ++ [.handed n]) [⟨s.held, n⟩] none (s.finish n)
      { samples := got.samples + n, metadata := lastMetadata (s.advance n).2 metadata
        buffers := filled }

/-- What the last round makes of the answer of a call: it leaves it, tells what was met, or
adds a share and tells how that ends. -/
inductive Answered (wanted : Nat) (r : Receiver) (got : Received) :
    List Share → Received → Prop where
  | same : Answered wanted r got [] got
  | told (c : Condition) (hnone : got.samples = 0) :
    Answered wanted r got [] { got with metadata := c.metadata }
  | handed {es : List Event} {s : Receiver} {n : Nat} {metadata : Metadata} {filled : List Bytes}
    (hgathers : r.Gathers es s none) (hhands : s.Hands wanted got n metadata filled) :
    Answered wanted r got [⟨s.held, n⟩]
      { samples := got.samples + n, metadata := lastMetadata (s.advance n).2 metadata
        buffers := filled }

/-- A call that returns: it tells what was kept for it, or it takes its course. -/
inductive Called (r : Receiver) (call : Call) :
    List Event → List Share → Option Condition → Receiver → Prop where
  | told {m : Metadata} (hpending : r.pending = some m)
    (hgot : call.got = { metadata := m, buffers := call.buffers }) :
    Called r call [] [] none { r with pending := none }
  | took {es es' : List Event} {shares shares' : List Share} {met : Option Condition}
    {s r' : Receiver} {got : Received} (hpending : r.pending = none)
    (hlength : call.buffers.length = r.channels.length)
    (hcourse : Course r call.buffers call.wanted call.onePacket es shares s got)
    (hends : Ends call.wanted call.onePacket s got es' shares' met r' call.got) :
    Called r call (es ++ es') (shares ++ shares') met r'

section
variable {r₀ r r' : Receiver} {buffers : List Bytes} {wanted : Nat} {onePacket : Bool}
  {es : List Event} {shares : List Share} {got got' : Received}

theorem finish_eq (s : Receiver) (n : Nat) :
    ∃ mode, s.finish n = { (s.advance n).1 with mode } := by
  unfold finish
  split
  · exact endBurst_eq _
  · exact ⟨(s.advance n).1.mode, rfl⟩

theorem Hands.le_wanted {n : Nat} {metadata : Metadata} {filled : List Bytes}
    (h : r.Hands wanted got n metadata filled) (hbound : got.samples ≤ wanted) :
    got.samples + n ≤ wanted := by
  obtain ⟨remaining, -, hn⟩ := h.count
  omega

theorem Course.samples (h : Course r₀ buffers wanted onePacket es shares r got) :
    got.samples = samplesIn shares ∧ got.samples ≤ wanted := by
  induction h with
  | start => exact ⟨rfl, Nat.zero_le _⟩
  | next _ _ hhands _ _ _ _ ih =>
    refine ⟨?_, hhands.le_wanted ih.2⟩
    rw [samplesIn_append, samplesIn_singleton, ← ih.1]

/-- What a call has done by one of its rounds. -/
theorem Course.progress (hsettled : r₀.Settled) (hlength : buffers.length = r₀.channels.length)
    (h : Course r₀ buffers wanted onePacket es shares r got) :
    Progress r₀ buffers wanted es r got := by
  induction h with
  | start => exact .start hsettled buffers wanted
  | next _ hgathers hhands _ _ _ _ ih =>
    have hready := ih.gather hgathers.history hgathers.gathers hgathers.settled
    have hfull := hgathers.full rfl
    rw [← List.append_assoc]
    exact hready.hand hlength hfull (hgathers.settled hfull) hhands _

/-- A condition is told at once or, when there are samples, kept, unless it is that nothing
came in time. -/
theorem report_cases {s : Receiver} {c : Condition} (h : s.report c got = (r', .ok got')) :
    (got.samples = 0 ∧ r' = s ∧ got' = { got with metadata := c.metadata }) ∨
      (0 < got.samples ∧ got' = got ∧
        r' = { s with pending := if c.code = .timeout then s.pending else some c.metadata }) := by
  unfold report at h
  split at h
  · rename_i hnone
    cases h
    exact .inl ⟨hnone, rfl, rfl⟩
  · rename_i hsome
    refine .inr ⟨Nat.pos_of_ne_zero hsome, ?_⟩
    split at h
    · rename_i hlate
      cases h
      exact ⟨rfl, by rw [if_pos hlate]⟩
    · rename_i hlate
      cases h
      exact ⟨rfl, by rw [if_neg hlate]⟩

section
variable {call : Call} {es' : List Event} {shares' : List Share} {met : Option Condition}

theorem Ends.answered (h : Ends wanted onePacket r got es' shares' met r' got') :
    Answered wanted r got shares' got' := by
  cases h with
  | met _ hreport =>
    rcases report_cases hreport with ⟨hnone, -, rfl⟩ | ⟨-, rfl, -⟩
    · exact .told _ hnone
    · exact .same
  | gap => exact .same
  | last hgathers hhands => exact .handed hgathers hhands

/-- What a call has done with its last round. -/
theorem Ends.progress (h : Ends wanted onePacket r got es' shares' met r' got')
    (hp : Progress r₀ buffers wanted es r got) (hlength : buffers.length = r₀.channels.length) :
    Progress r₀ buffers wanted (es ++ es') r' got' := by
  cases h with
  | met hgathers hreport =>
    have hready := hp.gather hgathers.history hgathers.gathers hgathers.settled
    obtain ⟨pending, metadata, hreported⟩ := report_eq _ _ got
    rw [hreported] at hreport
    cases hreport
    exact hready.aside pending _ metadata
  | gap hgathers => exact hp.gather hgathers.history hgathers.gathers hgathers.settled
  | @last _ s n metadata _ hgathers hhands =>
    have hready := hp.gather hgathers.history hgathers.gathers hgathers.settled
    have hfull := hgathers.full rfl
    obtain ⟨mode, hfinish⟩ := finish_eq s n
    rw [hfinish, ← List.append_assoc]
    exact (hready.hand hlength hfull (hgathers.settled hfull) hhands metadata).aside _ mode _

/-- What a call that returns has done. -/
theorem Called.progress (hsettled : r.Settled) (h : Called r call es shares met r') :
    Progress r call.buffers call.wanted es r' call.got := by
  cases h with
  | told _ hgot =>
    rw [hgot]
    exact (Progress.start hsettled call.buffers call.wanted).aside none _ _
  | took _ hlength hcourse hends => exact hends.progress (hcourse.progress hsettled hlength) hlength

/-- A share of a call is handed out of what its stream has come to hold by then. -/
inductive Handed (r : Receiver) (wanted : Nat) (es : List Event) : Share → Prop where
  | intro {before behind : List Event} {s : Receiver} {got : Received} {n : Nat}
    {metadata : Metadata} {filled : List Bytes} (hevents : es = before ++ behind)
    (history : History r before s) (full : s.Full) (hands : s.Hands wanted got n metadata filled) :
    Handed r wanted es ⟨s.held, n⟩

theorem Handed.append {s : Share} (h : Handed r wanted es s) (es' : List Event) :
    Handed r wanted (es ++ es') s := by
  cases h with
  | intro hevents history full hands =>
    exact .intro (by rw [hevents, List.append_assoc]) history full hands

theorem Course.handed (hsettled : r₀.Settled) (hlength : buffers.length = r₀.channels.length)
    (h : Course r₀ buffers wanted onePacket es shares r got) :
    ∀ s ∈ shares, Handed r₀ wanted es s := by
  induction h with
  | start => simp
  | next h hgathers hhands _ _ _ _ ih =>
    intro s hs
    rcases List.mem_append.mp hs with hs | hs
    · exact (ih s hs).append _
    · cases List.mem_singleton.mp hs
      exact .intro (List.append_assoc _ _ _).symm
        ((h.progress hsettled hlength).history.trans hgathers.history) (hgathers.full rfl) hhands

theorem Called.handed (hsettled : r.Settled) (h : Called r call es shares met r') :
    ∀ s ∈ shares, Handed r call.wanted es s := by
  cases h with
  | told => simp
  | took _ hlength hcourse hends =>
    intro s hs
    rcases List.mem_append.mp hs with hs | hs
    · exact (hcourse.handed hsettled hlength s hs).append _
    · generalize call.got = answer at hends
      cases hends with
      | met | gap => cases hs
      | last hgathers hhands =>
        cases List.mem_singleton.mp hs
        exact .intro (List.append_assoc _ _ _).symm
          ((hcourse.progress hsettled hlength).history.trans hgathers.history)
          (hgathers.full rfl) hhands

end

/-- What a round of a call does: it is the last one, it fails, or it hands out a share, which
uses a packet up, and another one comes. -/
inductive Goes (wanted : Nat) (onePacket : Bool) (r : Receiver) (got : Received) :
    Round → Prop where
  | ends {es : List Event} {shares : List Share} {met : Option Condition} {r' : Receiver}
    {got' : Received} (h : Ends wanted onePacket r got es shares met r' got') :
    Goes wanted onePacket r got (.done (r', .ok got'))
  | fails (r' : Receiver) (e : StreamError) : Goes wanted onePacket r got (.done (r', .error e))
  | on {es : List Event} {s : Receiver} {n : Nat} {metadata : Metadata} {filled : List Bytes}
    (hgathers : r.Gathers es s none) (hhands : s.Hands wanted got n metadata filled)
    (hused : (s.advance n).2 = some false) (hone : onePacket = false)
    (hnogap : s.held.any HeldPacket.outOfSequence = false) (hwanted : got.samples + n ≠ wanted) :
    Goes wanted onePacket r got
      (.more (s.advance n).1 { samples := got.samples + n, metadata, buffers := filled })

theorem channels_ne_nil (h : r'.channels.length = r.channels.length) (hr : r.channels ≠ []) :
    r'.channels ≠ [] := by
  rwa [← List.length_pos_iff_ne_nil, h, List.length_pos_iff_ne_nil]

theorem Full.held_ne_nil (h : r.Full) (hchannels : r.channels ≠ []) : r.held ≠ [] := by
  obtain ⟨c, hc⟩ := List.exists_mem_of_ne_nil _ hchannels
  intro hnone
  have hsome := h c hc
  rw [List.filterMap_eq_nil_iff.mp hnone c hc] at hsome
  cases hsome

theorem HandsOut.goes {s : Receiver} {result : Round} (h : s.HandsOut wanted onePacket got result)
    (hgathers : r.Gathers es s none) (hchannels : s.channels ≠ [])
    (hbound : got.samples ≤ wanted) : Goes wanted onePacket r got result := by
  cases h with
  | nothing hnone =>
    have hheld : s.held = [] := by
      simpa [List.min?_eq_none_iff] using hnone
    exact absurd hheld ((hgathers.full rfl).held_ne_nil hchannels)
  | gap hsome hgap => exact .ends (.gap hgathers hsome hgap)
  | @burst n metadata filled hhands hused =>
    have hends := @Ends.last wanted onePacket _ _ _ _ _ _ _ hgathers hhands (.inl hused)
    rw [finish, if_pos hused, hused] at hends
    exact .ends hends
  | @enough n metadata filled hhands hused hover =>
    have hends := Ends.last hgathers hhands (.inr hover)
    have hmetadata : lastMetadata (s.advance n).2 metadata =
        handedMetadata (s.advance n).2 metadata := by
      cases hflag : (s.advance n).2 with
      | none => rfl
      | some burst =>
        cases burst with
        | false => rfl
        | true => exact absurd hflag hused
    rw [finish, if_neg hused, hmetadata] at hends
    exact .ends hends
  | @more n metadata filled hhands hused hone hnogap hwanted =>
    have hflag : (s.advance n).2 = some false := by
      cases hflag : (s.advance n).2 with
      | none => exact absurd hflag (hhands.used hwanted hbound)
      | some burst =>
        cases burst with
        | false => rfl
        | true => exact absurd hflag hused
    rw [hflag]
    exact .on hgathers hhands hflag hone hnogap hwanted

theorem round_goes {result : Round} (hsettled : r.Settled) (hchannels : r.channels ≠ [])
    (hbound : got.samples ≤ wanted) (h : r.round wanted onePacket got = some result) :
    Goes wanted onePacket r got result := by
  obtain ⟨⟨s, outcome⟩, hready, h⟩ := Option.bind_eq_some_iff.mp h
  cases outcome with
  | error e =>
    cases h
    exact .fails s _
  | ok found =>
    obtain ⟨es, hgathers⟩ := gathers_of_ready hsettled hready
    cases found with
    | some c =>
      cases h
      obtain ⟨pending, metadata, hreport⟩ := report_eq s c got
      rw [hreport]
      exact .ends (.met hgathers hreport)
    | none =>
      have hsome := channels_ne_nil hgathers.history.length_channels hchannels
      exact (handOut_cases h).goes hgathers hsome hbound

/-- The rounds of a call lead to its last one before they run out. -/
theorem collect_called {rounds : Nat} (hsettled : r₀.Settled) (hchannels : r₀.channels ≠ [])
    (hlength : buffers.length = r₀.channels.length)
    (hcourse : Course r₀ buffers wanted onePacket es shares r got) (henough : r.backlog < rounds)
    (h : collect wanted onePacket rounds r got = some (r', .ok got')) :
    ∃ es₁ es₂ shares₁ shares₂ met s got₁,
      Course r₀ buffers wanted onePacket es₁ shares₁ s got₁ ∧
        Ends wanted onePacket s got₁ es₂ shares₂ met r' got' := by
  induction rounds generalizing r got es shares with
  | zero => exact absurd henough (Nat.not_lt_zero _)
  | succ rounds ih =>
    have hp := hcourse.progress hsettled hlength
    have hsome := channels_ne_nil hp.history.length_channels hchannels
    obtain ⟨result, hround, h⟩ := Option.bind_eq_some_iff.mp h
    cases round_goes hp.settled hsome hcourse.samples.2 hround with
    | fails => cases h
    | ends hends =>
      cases h
      exact ⟨_, _, _, _, _, _, _, hcourse, hends⟩
    | on hgathers hhands hused hone hnogap hwanted =>
      -- the packet used up makes up for the round
      have hless := backlog_advance_lt (hhands.used hwanted hcourse.samples.2)
      have hbacklog := hgathers.history.backlog_le hgathers.gathers
      exact ih (hcourse.next hgathers hhands hused hone hnogap hwanted) (by omega) h

/-- A call that returns took a course. -/
theorem recv_called {call : Call} (hsettled : r.Settled) (hchannels : r.channels ≠ [])
    (h : r.recv call.buffers call.wanted call.onePacket = some (r', .ok call.got)) :
    ∃ es shares met, Called r call es shares met r' := by
  unfold recv at h
  split at h
  · rename_i m hpending
    simp only [pure, Option.some.injEq, Prod.mk.injEq, Except.ok.injEq] at h
    obtain ⟨rfl, hgot⟩ := h
    exact ⟨_, _, _, .told hpending hgot.symm⟩
  · rename_i hpending
    split at h
    · cases h
    · rename_i hlength
      obtain ⟨need, -, h⟩ := Option.bind_eq_some_iff.mp h
      split at h
      · cases h
      · have hlength : call.buffers.length = r.channels.length := not_not.mp hlength
        obtain ⟨es, es', shares, shares', met, s, got, hcourse, hends⟩ :=
          collect_called hsettled hchannels hlength .start (Nat.lt_succ_self _) h
        exact ⟨_, _, _, .took hpending hlength hcourse hends⟩

end

end SampleStream.Receiver
