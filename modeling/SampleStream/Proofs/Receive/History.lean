import SampleStream.Proofs.Receive.Fetch

/-!
# The history of a receive stream

All that happens to the channels of a receive stream is one of six events: a frame
comes in, a link is closed, the first channel that holds nothing takes a frame, the
channels drop older packets, they drop all packets for want of a common time, or
they hand out samples. `Step` says when each of them may happen and what the stream
is after it, in terms of the stream's own operations; a `History` is a sequence of
steps. Bringing the channels to a common time (`align_history`) is such a history,
so what holds of every step holds of it.
-/

namespace SampleStream.Receive

/-- One thing that happens to a receive stream. -/
inductive Event where
  /-- A frame comes in on the link of a channel. -/
  | came (channel : Nat) (frame : Bytes)
  /-- The far end closes the link of a channel. -/
  | closed (channel : Nat)
  /-- A channel takes a frame off its link. -/
  | took (channel : Nat) (frame : Bytes)
  /-- The channels drop packets older than a time. -/
  | outdated (time : UInt64)
  /-- The channels drop what they hold, for want of a common time. -/
  | misaligned
  /-- Samples of every channel are handed out. -/
  | handed (count : Nat)

namespace Event

/-- Whether the event is one of getting packets together to hand out. -/
def gathers : Event → Bool
  | took .. | outdated _ | misaligned => true
  | came .. | closed _ | handed _ => false

/-- The warnings that an event is worth on a stream of `channels` channels that
gives up after `rounds` rounds. -/
def warnings (channels rounds : Nat) : Event → List Warning
  | misaligned => [.misaligned channels rounds]
  | _ => []

/-- The condition that an event is one of. -/
def condition (order : ByteOrder) (tickRate : Float) : Event → Option Condition
  | took channel frame => conditionIn order tickRate channel frame
  | misaligned => some { code := .alignment, channel := 0 }
  | _ => none

end Event

/-- The events come to a condition with the last of them, or to none. That nothing came
in time is a condition, but no event. -/
inductive EndsIn (order : ByteOrder) (tickRate : Float) : List Event → Option Condition → Prop where
  | nothing {es : List Event} (hes : ∀ e ∈ es, e.condition order tickRate = none) :
    EndsIn order tickRate es none
  | late {es : List Event} (hes : ∀ e ∈ es, e.condition order tickRate = none) (index : Nat) :
    EndsIn order tickRate es (some { code := .timeout, channel := index })
  | met {es : List Event} {e : Event} {c : Condition}
    (hes : ∀ e ∈ es, e.condition order tickRate = none) (hc : e.condition order tickRate = some c) :
    EndsIn order tickRate (es ++ [e]) (some c)

/-- Events without conditions may come first. -/
theorem EndsIn.after {order : ByteOrder} {tickRate : Float} {es es' : List Event}
    {found : Option Condition} (h : EndsIn order tickRate es' found)
    (hes : ∀ e ∈ es, e.condition order tickRate = none) :
    EndsIn order tickRate (es ++ es') found := by
  have hboth {es' : List Event} (hes' : ∀ e ∈ es', e.condition order tickRate = none) :
      ∀ e ∈ es ++ es', e.condition order tickRate = none := by
    intro e he
    exact (List.mem_append.mp he).elim (hes e) (hes' e)
  cases h with
  | nothing hes' => exact .nothing (hboth hes')
  | late hes' index => exact .late (hboth hes') index
  | met hes' hc =>
    rw [← List.append_assoc]
    exact .met (hboth hes') hc

theorem EndsIn.of_none {order : ByteOrder} {tickRate : Float} {es : List Event}
    (h : EndsIn order tickRate es none) : ∀ e ∈ es, e.condition order tickRate = none := by
  cases h with
  | nothing hes => exact hes

end SampleStream.Receive

namespace SampleStream

namespace Receiver
open Receive

/-! ## What the channels hold -/

/-- Every channel holds a packet. -/
def Full (r : Receiver) : Prop := ∀ c ∈ r.channels, c.held.isSome

/-- No packet is older than the newest one. -/
def Aligned (r : Receiver) : Prop :=
  ∀ time, r.newest = some time → r.held.any (isOlder time) = false

/-- The packets held have a common time as soon as every channel holds one. -/
def Settled (r : Receiver) : Prop := r.Full → r.Aligned

/-- `c` is the first channel that holds nothing. -/
structure FirstVacant (r : Receiver) (index : Nat) (c : Channel) : Prop where
  channel : r.channels[index]? = some c
  vacant : c.held = none
  before : ∀ j < index, ∀ d, r.channels[j]? = some d → d.held.isSome

theorem FirstVacant.not_full {r : Receiver} {index : Nat} {c : Channel}
    (h : r.FirstVacant index c) : ¬ r.Full := by
  intro hfull
  have hsome := hfull c (List.mem_of_getElem? h.channel)
  rw [h.vacant] at hsome
  cases hsome

/-! ## Steps -/

/-- One event, the stream before it, and the stream after it. -/
inductive Step : Receiver → Event → Receiver → Prop where
  | came (r : Receiver) (index : Nat) (frame : Bytes) :
    Step r (.came index frame) (r.onLink index (·.carry frame))
  | closed (r : Receiver) (index : Nat) : Step r (.closed index) (r.onLink index Link.closeSender)
  | took {r r' : Receiver} {index : Nat} {c : Channel} {frame : Bytes} {rest : List Bytes}
    {found : Option Condition} (hfirst : r.FirstVacant index c)
    (hlink : c.link.frames = frame :: rest) (h : r.fetch index c = some (r', .ok found)) :
    Step r (.took index frame) r'
  | outdated {r : Receiver} {time : UInt64} (hfull : r.Full) (hnewest : r.newest = some time)
    (holder : r.held.any (isOlder time) = true) :
    Step r (.outdated time) (r.dropHeld (isOlder time))
  | misaligned {r : Receiver} {time : UInt64} (hfull : r.Full) (hnewest : r.newest = some time)
    (holder : r.held.any (isOlder time) = true) :
    Step r .misaligned (r.dropHeld (isOlder time)).giveUp
  | handed {r : Receiver} {count : Nat} (hfull : r.Full) (haligned : r.Aligned)
    (hcount : ∀ p ∈ r.held, count ≤ p.remaining) :
    Step r (.handed count) (r.advance count).1

/-- The events that led from one stream to another. What is still to be reported,
the mode of the device and the commands to it may change besides. -/
inductive History : Receiver → List Event → Receiver → Prop where
  | refl (r : Receiver) : History r [] r
  | step {r r' r'' : Receiver} {es : List Event} {e : Event} (h : History r es r')
    (hstep : Step r' e r'') : History r (es ++ [e]) r''
  | aside {r r' : Receiver} {es : List Event} (h : History r es r') (pending : Option Metadata)
    (mode : Mode) (issued : List Issued) : History r es { r' with pending, mode, issued }

theorem Step.history {r r' : Receiver} {e : Event} (h : Step r e r') : History r [e] r' :=
  .step (.refl r) h

theorem History.trans {r r' r'' : Receiver} {es es' : List Event} (h : History r es r')
    (h' : History r' es' r'') : History r (es ++ es') r'' := by
  induction h' with
  | refl => simpa using h
  | step _ hstep ih =>
    rw [← List.append_assoc]
    exact ih.step hstep
  | aside _ pending mode issued ih => exact ih.aside pending mode issued

/-! ## What no step changes -/

theorem Step.setup {r r' : Receiver} {e : Event} (h : Step r e r') : r'.setup = r.setup := by
  cases h with
  | took hfirst hlink h =>
    obtain ⟨_, -, htook⟩ := fetch_of_frame hlink h
    exact htook.setup
  | _ => rfl

theorem History.setup {r r' : Receiver} {es : List Event} (h : History r es r') :
    r'.setup = r.setup := by
  induction h with
  | refl => rfl
  | step _ hstep ih => exact hstep.setup.trans ih
  | aside _ _ _ _ ih => exact ih

theorem converter_advance (c : Channel) (count : Nat) :
    (c.advance count).1.converter = c.converter := by
  unfold Channel.advance
  split
  · rfl
  · dsimp only
    split <;> rfl

/-- Replacing an element by one with the same image changes no image. -/
theorem map_set_of_eq {α β : Type} {l : List α} {index : Nat} {a b : α} (f : α → β)
    (ha : l[index]? = some a) (h : f b = f a) : (l.set index b).map f = l.map f := by
  apply List.ext_getElem?
  intro j
  rw [List.getElem?_map, List.getElem?_map, List.getElem?_set]
  by_cases hj : index = j
  · subst hj
    obtain ⟨hlt, rfl⟩ := List.getElem?_eq_some_iff.mp ha
    simp [hlt, h]
  · simp [hj]

theorem Step.converters {r r' : Receiver} {e : Event} (h : Step r e r') :
    r'.channels.map Channel.converter = r.channels.map Channel.converter := by
  have hdrop (r : Receiver) (drop : HeldPacket → Bool) :
      (r.dropHeld drop).channels.map Channel.converter = r.channels.map Channel.converter := by
    simp only [dropHeld, List.map_map]
    apply List.map_congr_left
    intro c _
    rw [Function.comp_apply]
    split <;> rfl
  have hlink (r : Receiver) (index : Nat) (f : Link → Link) :
      (r.onLink index f).channels.map Channel.converter = r.channels.map Channel.converter := by
    apply List.ext_getElem?
    intro j
    simp only [onLink, List.getElem?_map, List.getElem?_modify]
    by_cases hj : index = j
    · simp [hj, Function.comp_def]
    · simp [hj]
  cases h with
  | came index frame => exact hlink r index _
  | closed index => exact hlink r index _
  | took hfirst hlink h =>
    obtain ⟨_, -, htook⟩ := fetch_of_frame hlink h
    obtain ⟨c', fetched, htaken, hchannels, -⟩ := htook.channels
    rw [hchannels]
    exact map_set_of_eq _ hfirst.channel htaken.converter
  | outdated => exact hdrop r _
  | misaligned => exact (hdrop _ _).trans (hdrop r _)
  | handed =>
    simp only [advance, List.map_map]
    apply List.map_congr_left
    intro c _
    exact converter_advance c _

theorem History.converters {r r' : Receiver} {es : List Event} (h : History r es r') :
    r'.channels.map Channel.converter = r.channels.map Channel.converter := by
  induction h with
  | refl => rfl
  | step _ hstep ih => exact hstep.converters.trans ih
  | aside _ _ _ _ ih => exact ih

theorem History.length_channels {r r' : Receiver} {es : List Event} (h : History r es r') :
    r'.channels.length = r.channels.length := by
  simpa using congrArg List.length h.converters

/-- The channel at a position converts the way it always did. -/
theorem History.converter {r r' : Receiver} {es : List Event} (h : History r es r') {index : Nat}
    {c c' : Channel} (hc : r.channels[index]? = some c) (hc' : r'.channels[index]? = some c') :
    c'.converter = c.converter := by
  have heq := congrArg (·[index]?) h.converters
  simpa [hc, hc'] using heq

theorem History.exists_channel {r r' : Receiver} {es : List Event} (h : History r es r')
    {index : Nat} {c : Channel} (hc : r.channels[index]? = some c) :
    ∃ c', r'.channels[index]? = some c' ∧ c'.converter = c.converter := by
  have heq := congrArg (·[index]?) h.converters
  simpa [hc] using heq

/-! ## Warnings -/

theorem Step.warnings {r r' : Receiver} {e : Event} (h : Step r e r') :
    r'.warnings = r.warnings ++ e.warnings r.channels.length (r.alignmentThreshold + 1) := by
  cases h with
  | took hfirst hlink h =>
    obtain ⟨_, -, htook⟩ := fetch_of_frame hlink h
    simp [htook.warnings, Event.warnings]
  | misaligned => simp [giveUp, dropHeld, Event.warnings]
  | came => simp [onLink, Event.warnings]
  | closed => simp [onLink, Event.warnings]
  | outdated => simp [dropHeld, Event.warnings]
  | handed => simp [advance, Event.warnings]

/-- A warning is written whenever the channels do not come to a common time, and
only then. -/
theorem History.warnings {r r' : Receiver} {es : List Event} (h : History r es r') :
    r'.warnings =
      r.warnings ++ es.flatMap (Event.warnings r.channels.length (r.alignmentThreshold + 1)) := by
  induction h with
  | refl => simp
  | step h hstep ih =>
    rw [hstep.warnings, ih, h.length_channels, alignmentThreshold_of_setup h.setup]
    simp
  | aside _ _ _ _ ih => exact ih

/-! ## Bringing the channels to a common time -/

/-- One channel more that holds a packet. -/
theorem held_lt_succ {cs : List Channel} {k : Nat} {c : Channel}
    (hbefore : ∀ j < k, ∀ d, cs[j]? = some d → d.held.isSome) (hc : cs[k]? = some c)
    (hsome : c.held.isSome) : ∀ j < k + 1, ∀ d, cs[j]? = some d → d.held.isSome := by
  intro j hj d hd
  by_cases hjk : j = k
  · subst hjk
    cases hc.symm.trans hd
    exact hsome
  · exact hbefore j (by omega) d hd

/-- A frame taken by the first channel that holds nothing is a packet, and one
channel more holds one, or there is a condition and that channel still holds
nothing. -/
theorem Took.held {r r' : Receiver} {k : Nat} {c : Channel} {frame : Bytes} {rest : List Bytes}
    {found : Option Condition} (h : r.Took k c frame rest r' found) (hfirst : r.FirstVacant k c) :
    (found = none ∧ ∀ j < k + 1, ∀ d, r'.channels[j]? = some d → d.held.isSome) ∨
      (found ≠ none ∧ ¬ r'.Full) := by
  obtain ⟨c', fetched, htaken, hset, rfl⟩ := h.channels
  obtain ⟨hlt, -⟩ := List.getElem?_eq_some_iff.mp hfirst.channel
  have hnew : r'.channels[k]? = some c' := by
    rw [hset, List.getElem?_set_self hlt]
  rcases htaken.held with ⟨hnone, hsome⟩ | ⟨⟨found', hfound⟩, hsame⟩
  · have hbefore : ∀ j < k, ∀ d, r'.channels[j]? = some d → d.held.isSome := by
      intro j hj d hd
      rw [hset, List.getElem?_set_ne (by omega)] at hd
      exact hfirst.before j hj d hd
    exact .inl ⟨hnone, held_lt_succ hbefore hnew hsome⟩
  · refine .inr ⟨by simp [hfound], ?_⟩
    intro hfull
    have hsome := hfull c' (List.mem_of_getElem? hnew)
    rw [hsame, hfirst.vacant] at hsome
    cases hsome

/-- Filling the channels from `k` on, when those before it hold packets already. -/
theorem fill_history {m k : Nat} {r r' : Receiver} {found : Option Condition}
    (hbefore : ∀ j < k, ∀ d, r.channels[j]? = some d → d.held.isSome)
    (hlength : k + m = r.channels.length)
    (h : r.fill (List.range' k m) = some (r', .ok found)) :
    ∃ es, History r es r' ∧ (∀ e ∈ es, e.gathers = true) ∧ EndsIn r.order r.tickRate es found ∧
      (found = none ↔ r'.Full) := by
  -- by the channels left; a channel that holds a packet is passed over
  induction m generalizing k r with
  | zero =>
    cases h
    refine ⟨[], .refl _, by simp, .nothing (by simp), iff_of_true rfl ?_⟩
    intro c hc
    obtain ⟨j, hj, rfl⟩ := List.mem_iff_getElem.mp hc
    exact hbefore j (by omega) _ (List.getElem?_eq_getElem hj)
  | succ m ih =>
    have hk : k < r.channels.length := by omega
    have hchannel : r.channels[k]? = some r.channels[k] := List.getElem?_eq_getElem hk
    rw [List.range'_succ, fill, hchannel] at h
    dsimp only at h
    split at h
    · rename_i hheld
      exact ih (held_lt_succ hbefore hchannel hheld) (by omega) h
    · rename_i hheld
      have hfirst : r.FirstVacant k r.channels[k] :=
        ⟨hchannel, by simpa using hheld, hbefore⟩
      simp only [bind, Option.bind_eq_some_iff] at h
      obtain ⟨⟨r₁, outcome⟩, hfetch, h⟩ := h
      cases hframes : r.channels[k].link.frames with
      | nil =>
        rcases fetch_of_empty hchannel hframes hfetch with rfl | ⟨rfl, rfl⟩
        · cases h
        · cases h
          exact ⟨[], .refl _, by simp, .late (by simp) k, iff_of_false (by simp) hfirst.not_full⟩
      | cons frame rest =>
        obtain ⟨found₁, rfl, htook⟩ := fetch_of_frame hframes hfetch
        have hstep : Step r (.took k frame) r₁ := .took hfirst hframes hfetch
        rcases htook.held hfirst with ⟨rfl, hbefore'⟩ | ⟨hfound, hnotfull⟩
        · obtain ⟨es, hhistory, hgathers, hends, hfull⟩ := ih hbefore'
            (by rw [hstep.history.length_channels]; omega) h
          rw [order_of_setup htook.setup, tickRate_of_setup htook.setup] at hends
          have hquiet : ∀ e ∈ [Event.took k frame], e.condition r.order r.tickRate = none := by
            simpa [Event.condition] using htook.found_eq.symm
          exact ⟨[.took k frame] ++ es, hstep.history.trans hhistory,
            by simpa [Event.gathers] using hgathers, hends.after hquiet, hfull⟩
        · -- a condition ends the filling at this channel
          obtain ⟨condition, rfl⟩ := Option.ne_none_iff_exists'.mp hfound
          cases h
          have hends : EndsIn r.order r.tickRate ([] ++ [.took k frame]) (some condition) :=
            .met (by simp) htook.found_eq.symm
          exact ⟨[.took k frame], hstep.history, by simp [Event.gathers], hends,
            iff_of_false (by simp) hnotfull⟩

/-- A packet alone is the newest one. -/
theorem not_older_of_single {r : Receiver} {time : UInt64} (hone : r.held.length ≤ 1)
    (hnewest : r.newest = some time) : r.held.any (isOlder time) = false := by
  rw [newest] at hnewest
  rcases hheld : r.held with _ | ⟨p, _ | ⟨q, rest⟩⟩
  · rfl
  · rw [hheld] at hnewest
    cases htime : p.header.fractionalTime with
    | none => simp [isOlder, htime]
    | some own =>
      simp only [List.filterMap_cons, htime, List.filterMap_nil, List.max?_singleton,
        Option.some.injEq] at hnewest
      simp [isOlder, htime, hnewest]
  · rw [hheld] at hone
    simp at hone

theorem not_full_giveUp {r : Receiver} (h : r.channels ≠ []) : ¬ r.giveUp.Full := by
  intro hfull
  obtain ⟨c, rest, hchannels⟩ := List.exists_cons_of_ne_nil h
  have hsome := hfull (if c.held.any (fun _ => true) then { c with held := none } else c)
    (by simp [giveUp, dropHeld, hchannels])
  cases hheld : c.held with
  | none => simp [hheld] at hsome
  | some p => simp [hheld] at hsome

/-- One round of bringing the channels to a common time: something is in the way,
the times agree, or older packets are dropped and the next round follows, if there
is one. -/
theorem alignWithin_cases {rounds : Nat} {r r' : Receiver} {found : Option Condition}
    (h : r.alignWithin rounds = some (r', .ok found)) :
    ∃ r₁ found₁, r.fill (List.range' 0 r.channels.length) = some (r₁, .ok found₁) ∧
      ((found₁.isSome ∧ r' = r₁ ∧ found = found₁) ∨
        (found₁ = none ∧ r₁.Aligned ∧ r' = r₁ ∧ found = none) ∨
        ∃ time, found₁ = none ∧ r₁.newest = some time ∧ r₁.held.any (isOlder time) = true ∧
          ((rounds = 0 ∧ r' = (r₁.dropHeld (isOlder time)).giveUp ∧
              found = some { code := .alignment, channel := 0 }) ∨
            ∃ n, rounds = n + 1 ∧
              (r₁.dropHeld (isOlder time)).alignWithin n = some (r', .ok found))) := by
  unfold alignWithin at h
  simp only [bind, Option.bind_eq_some_iff] at h
  obtain ⟨⟨r₁, outcome⟩, hfill, h⟩ := h
  rw [List.range_eq_range'] at hfill
  cases outcome with
  | error e => cases h
  | ok found =>
    cases found with
    | some condition =>
      cases h
      exact ⟨_, _, hfill, .inl ⟨rfl, rfl, rfl⟩⟩
    | none =>
      refine ⟨r₁, none, hfill, .inr ?_⟩
      cases hnewest : r₁.newest with
      | none =>
        simp only [hnewest, pure, Option.some.injEq, Prod.mk.injEq] at h
        obtain ⟨rfl, ⟨⟩⟩ := h
        exact .inl ⟨rfl, fun time ht => by simp [hnewest] at ht, rfl, rfl⟩
      | some time =>
        cases holder : r₁.held.any (isOlder time) with
        | false =>
          simp only [hnewest, holder, Bool.false_eq_true, if_false, pure, Option.some.injEq,
            Prod.mk.injEq] at h
          obtain ⟨rfl, ⟨⟩⟩ := h
          refine .inl ⟨rfl, fun newest hn => ?_, rfl, rfl⟩
          cases hnewest.symm.trans hn
          exact holder
        | true =>
          simp only [hnewest, holder, if_true] at h
          refine .inr ⟨time, rfl, rfl, holder, ?_⟩
          cases rounds with
          | zero =>
            cases h
            exact .inl ⟨rfl, rfl, rfl⟩
          | succ n => exact .inr ⟨n, rfl, h⟩

theorem alignWithin_history {rounds : Nat} {r r' : Receiver} {found : Option Condition}
    (h : r.alignWithin rounds = some (r', .ok found)) :
    ∃ es, History r es r' ∧ (∀ e ∈ es, e.gathers = true) ∧ EndsIn r.order r.tickRate es found ∧
      (found = none → r'.Aligned) ∧ (found = none ↔ r'.Full) := by
  -- by the rounds left, of which one that drops packets uses one up
  induction rounds using Nat.strongRecOn generalizing r with
  | ind rounds ih =>
    obtain ⟨r₁, found₁, hfill, hround⟩ := alignWithin_cases h
    obtain ⟨es, hhistory, hgathers, hends, hfull⟩ := fill_history (by simp) (by simp) hfill
    rcases hround with ⟨hsome, rfl, rfl⟩ | ⟨rfl, haligned, rfl, rfl⟩ |
      ⟨time, rfl, hnewest, holder, hrounds⟩
    · exact ⟨es, hhistory, hgathers, hends, fun hnone => by simp [hnone] at hsome, hfull⟩
    · exact ⟨es, hhistory, hgathers, hends, fun _ => haligned, hfull⟩
    · have hquiet := hends.of_none
      rcases hrounds with ⟨-, rfl, rfl⟩ | ⟨n, rfl, hrest⟩
      · refine ⟨es ++ [.misaligned], hhistory.step (.misaligned (hfull.mp rfl) hnewest holder),
          ?_, .met hquiet rfl, nofun, ?_⟩
        · simpa [or_imp, forall_and, Event.gathers] using hgathers
        · refine iff_of_false nofun (not_full_giveUp ?_)
          intro hempty
          simp only [dropHeld, List.map_eq_nil_iff] at hempty
          simp [held, hempty] at holder
      · have hhistory₁ := hhistory.step (.outdated (hfull.mp rfl) hnewest holder)
        obtain ⟨es', hhistory', hgathers', hends', hend⟩ := ih n (Nat.lt_succ_self n) hrest
        rw [order_of_setup hhistory₁.setup, tickRate_of_setup hhistory₁.setup] at hends'
        have hquiet' : ∀ e ∈ es ++ [.outdated time], e.condition r.order r.tickRate = none := by
          simpa [or_imp, forall_and, Event.condition] using hquiet
        refine ⟨es ++ [.outdated time] ++ es', hhistory₁.trans hhistory', ?_,
          hends'.after hquiet', hend⟩
        simpa [or_imp, forall_and, Event.gathers] using ⟨hgathers, hgathers'⟩

/-- Bringing the channels to a common time is a history, which ends with packets of
one time on all channels or with a channel that holds nothing. -/
theorem align_history {r r' : Receiver} {found : Option Condition}
    (h : r.align = some (r', .ok found)) :
    ∃ es, History r es r' ∧ (∀ e ∈ es, e.gathers = true) ∧ EndsIn r.order r.tickRate es found ∧
      (found = none → r'.Aligned) ∧ (found = none ↔ r'.Full) :=
  alignWithin_history h

end Receiver
end SampleStream
