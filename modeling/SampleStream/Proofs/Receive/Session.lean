import SampleStream.Proofs.Receive.Closing
import SampleStream.Proofs.Receive.Telling

/-!
# Sessions

A session is a run with the rates set in between. Its log has a turn for each call, with the
course that the call took, and every session has one (`Session.logged`). The frames that the
turns took off a link are those that came in on it, up to the ones still on it
(`Logged.frames`), and what they handed out is from packets in those frames
(`Logged.sources`).
-/

namespace SampleStream.Receive

/-- The frame that an event takes off the link of a channel, if it does. -/
def Event.taking (index : Nat) : Event → Option Bytes
  | took channel frame => if channel = index then some frame else none
  | _ => none

/-- A call with its course: the stream before it, what happened, what was handed out and what
was met in it, and the stream after it. -/
structure Turn where
  before : Receiver
  call : Call
  events : List Event
  shares : List Share
  met : Option Condition
  after : Receiver

/-- The frames that turns took off the link of a channel. -/
def takenIn (index : Nat) (turns : List Turn) : List Bytes :=
  (turns.flatMap Turn.events).filterMap (Event.taking index)

theorem takenIn_append (index : Nat) (turns turns' : List Turn) :
    takenIn index (turns ++ turns') = takenIn index turns ++ takenIn index turns' := by
  rw [takenIn, List.flatMap_append, List.filterMap_append, takenIn, takenIn]

theorem takenIn_singleton (index : Nat) (t : Turn) :
    takenIn index [t] = t.events.filterMap (Event.taking index) := by
  simp [takenIn]

namespace HeldPacket

/-- The packet came in a frame, and it has the time of its header at a tick rate, if the
header gives one. -/
structure CameIn (p : HeldPacket) (order : ByteOrder) (tickRate : Float) (frame : Bytes) :
    Prop where
  packet : packetOf order frame = some (p.header, p.payload)
  time : p.time = headerTime tickRate p.header
  isSome_time : p.time.isSome = p.header.fractionalTime.isSome

/-- The two are one packet, whatever was handed out of it in between. -/
structure Same (p' p : HeldPacket) : Prop where
  header : p'.header = p.header
  payload : p'.payload = p.payload
  time : p'.time = p.time

variable {p p' q : HeldPacket}

theorem Same.refl (p : HeldPacket) : p.Same p := ⟨rfl, rfl, rfl⟩

theorem Same.trans (h : p'.Same p) (h' : p.Same q) : p'.Same q :=
  ⟨h.header.trans h'.header, h.payload.trans h'.payload, h.time.trans h'.time⟩

theorem Same.packet (h : p'.Same p) : p'.part.packet = p.part.packet := by
  show (p'.header, p'.payload) = (p.header, p.payload)
  rw [h.header, h.payload]

theorem CameIn.of_same {order : ByteOrder} {tickRate : Float} {frame : Bytes}
    (h : p.CameIn order tickRate frame) (hsame : p'.Same p) : p'.CameIn order tickRate frame := by
  obtain ⟨hheader, hpayload, htime⟩ := hsame
  refine ⟨?_, ?_, ?_⟩
  · rw [hheader, hpayload]
    exact h.packet
  · rw [hheader, htime]
    exact h.time
  · rw [hheader, htime]
    exact h.isSome_time

end HeldPacket

namespace Channel

/-- A link gives its frames in the order in which they come. -/
theorem Moved.taking {order : ByteOrder} {wireItem index : Nat} {tickRate : Float} {e : Event}
    {c c' : Channel} (h : Moved order wireItem tickRate index e c c') :
    c.link.frames ++ (e.arrival index).toList = (e.taking index).toList ++ c'.link.frames := by
  have hledger : (Ledger.record order wireItem index {} e).taken = (e.taking index).toList := by
    cases e with
    | took channel frame =>
      simp only [Ledger.record, Event.taking]
      split <;> rfl
    | _ => rfl
  have hframes := h.frames {}
  rw [hledger] at hframes
  exact hframes

/-- A packet held was held before, or it came in the frame that is taken. -/
theorem Moved.source {order : ByteOrder} {wireItem index : Nat} {tickRate : Float} {e : Event}
    {c c' : Channel} (h : Moved order wireItem tickRate index e c c') {p' : HeldPacket}
    (hp' : c'.held = some p') :
    (∃ p, c.held = some p ∧ p'.Same p) ∨
      ∃ frame ∈ e.taking index, p'.CameIn order tickRate frame := by
  cases h with
  | came | closed | came_elsewhere | closed_elsewhere | took_elsewhere =>
    exact .inl ⟨p', hp', .refl p'⟩
  | @took _ _ frame _ _ hvacant hlink htaken =>
    refine .inr ⟨frame, by simp [Event.taking], ?_⟩
    cases htaken with
    | unreadable | report =>
      have hnone : c.held = some p' := hp'
      rw [hvacant] at hnone
      cases hnone
    | samples hcontent time htime =>
      cases hp'
      obtain ⟨hheader, hsome⟩ := headerTime_of_packetTime htime
      exact ⟨by simp [packetOf, hcontent], hheader.symm, hsome⟩
  | outdated time =>
    unfold dropIf at hp'
    split at hp'
    · cases hp'
    · exact .inl ⟨p', hp', .refl p'⟩
  | misaligned => cases hp'
  | @handed count _ p hp hcount =>
    refine .inl ⟨p, hp, ?_⟩
    by_cases hused : (p.advance count).remaining = 0
    · rw [advance_of_used hp hused] at hp'
      cases hp'
    · rw [advance_of_left hp hused] at hp'
      cases hp'
      exact ⟨rfl, rfl, rfl⟩

end Channel
end SampleStream.Receive

namespace SampleStream.Receiver
open Receive

section
variable {r₀ r r' : Receiver} {actions actions' : List Action} {turns : List Turn} {index : Nat}

/-! ## What calls take off the links -/

/-- The frames that a channel took and those still on its link are those that were on it and
those that came. -/
theorem History.taking {es : List Event} (h : History r es r') {c : Channel}
    (hc : r.channels[index]? = some c) :
    ∃ c', r'.channels[index]? = some c' ∧
      c.link.frames ++ es.filterMap (Event.arrival index) =
        es.filterMap (Event.taking index) ++ c'.link.frames := by
  induction h with
  | refl => exact ⟨c, hc, by simp⟩
  | @step r₁ r₂ es e h hstep ih =>
    obtain ⟨c₁, hc₁, hframes⟩ := ih
    obtain ⟨c₂, hc₂, hmoved⟩ := hstep.moved hc₁
    refine ⟨c₂, hc₂, ?_⟩
    rw [filterMap_concat, filterMap_concat, ← List.append_assoc, hframes, List.append_assoc,
      hmoved.taking, List.append_assoc]
  | aside _ _ _ _ ih => exact ih

/-- A packet held at the end was held at the start, or it came in a frame taken. -/
theorem History.source {es : List Event} (h : History r es r') {c' : Channel} {p' : HeldPacket}
    (hc' : r'.channels[index]? = some c') (hp' : c'.held = some p') :
    (∃ c p, r.channels[index]? = some c ∧ c.held = some p ∧ p'.Same p) ∨
      ∃ frame ∈ es.filterMap (Event.taking index), p'.CameIn r.order r.tickRate frame := by
  induction h generalizing c' p' with
  | refl => exact .inl ⟨c', p', hc', hp', .refl p'⟩
  | @step r₁ r₂ es e h hstep ih =>
    obtain ⟨hlt, -⟩ := List.getElem?_eq_some_iff.mp hc'
    rw [hstep.history.length_channels] at hlt
    have hc₁ := List.getElem?_eq_getElem hlt
    obtain ⟨c₂, hc₂, hmoved⟩ := hstep.moved hc₁
    cases hc'.symm.trans hc₂
    rw [order_of_setup h.setup, tickRate_of_setup h.setup] at hmoved
    rw [List.filterMap_append]
    rcases hmoved.source hp' with ⟨p₁, hp₁, hsame⟩ | ⟨frame, hframe, hcame⟩
    · rcases ih hc₁ hp₁ with ⟨c, p, hc, hp, hsame'⟩ | ⟨frame, hframe, hcame⟩
      · exact .inl ⟨c, p, hc, hp, hsame.trans hsame'⟩
      · exact .inr ⟨frame, List.mem_append_left _ hframe, hcame.of_same hsame⟩
    · exact .inr ⟨frame, List.mem_append_right _ (by simpa using hframe), hcame⟩
  | aside _ _ _ _ ih => exact ih hc' hp'

/-! ## Sessions -/

/-- Runs, with the rates set in between. -/
inductive Session (r₀ : Receiver) : List Action → Receiver → Prop where
  | start : Session r₀ [] r₀
  | run {actions actions' : List Action} {r r' : Receiver} (h : Session r₀ actions r)
    (hrun : Run r actions' r') : Session r₀ (actions ++ actions') r'
  | rates {actions : List Action} {r : Receiver} (h : Session r₀ actions r)
    (tickRate sampleRate : Float) : Session r₀ actions { r with tickRate, sampleRate }

/-- What is done with a stream apart from calls. -/
inductive Aside (r : Receiver) : List Action → Receiver → Prop where
  | came (index : Nat) (frame : Bytes) :
    Aside r [.came index frame] (r.onLink index (·.carry frame))
  | closed (index : Nat) : Aside r [.closed index] (r.onLink index Link.closeSender)
  | command (command : StreamCommand) : Aside r [.command command] (r.command command)
  | rates (tickRate sampleRate : Float) : Aside r [] { r with tickRate, sampleRate }

/-- A session, call by call. -/
inductive Logged (r₀ : Receiver) : List Action → List Turn → Receiver → Prop where
  | start : Logged r₀ [] [] r₀
  | aside {actions actions' : List Action} {turns : List Turn} {r r' : Receiver}
    (h : Logged r₀ actions turns r) (haside : Aside r actions' r') :
    Logged r₀ (actions ++ actions') turns r'
  | call {actions : List Action} {turns : List Turn} {t : Turn}
    (h : Logged r₀ actions turns t.before)
    (hrecv : t.before.recv t.call.buffers t.call.wanted t.call.onePacket =
      some (t.after, .ok t.call.got))
    (hcalled : Called t.before t.call t.events t.shares t.met t.after) :
    Logged r₀ (actions ++ [.call t.call]) (turns ++ [t]) t.after

/-- What is done apart from calls leaves the channels but for their links, and what is still
to be told. -/
structure Alike (r : Receiver) (actions : List Action) (r' : Receiver) : Prop where
  order : r'.order = r.order
  wireItem : r'.wireItem = r.wireItem
  hostItem : r'.hostItem = r.hostItem
  pending : r'.pending = r.pending
  markers : r'.markers = r.markers
  nocall : callsOf actions = []
  length : r'.channels.length = r.channels.length
  channels : ∀ {index : Nat} {c : Channel}, r.channels[index]? = some c →
    ∃ link, r'.channels[index]? = some { c with link } ∧
      link.frames = c.link.frames ++ arrivals index actions

theorem Aside.alike (h : Aside r actions r') : Alike r actions r' := by
  cases h with
  | came channel frame =>
    refine ⟨rfl, rfl, rfl, rfl, rfl, rfl, by simp [onLink], fun {index c} hc => ?_⟩
    rw [getElem?_onLink r _ hc]
    by_cases hsame : channel = index
    · exact ⟨c.link.carry frame, by rw [if_pos hsame], by
        simp [arrivals, Action.arrival, hsame, Link.carry]⟩
    · exact ⟨c.link, by rw [if_neg hsame], by simp [arrivals, Action.arrival, hsame]⟩
  | closed channel =>
    refine ⟨rfl, rfl, rfl, rfl, rfl, rfl, by simp [onLink], fun {index c} hc => ?_⟩
    rw [getElem?_onLink r _ hc]
    by_cases hsame : channel = index
    · exact ⟨c.link.closeSender, by rw [if_pos hsame], by
        simp [arrivals, Action.arrival, Link.closeSender]⟩
    · exact ⟨c.link, by rw [if_neg hsame], by simp [arrivals, Action.arrival]⟩
  | command command =>
    obtain ⟨mode, issued, hcommand⟩ := command_eq r command
    rw [hcommand]
    exact ⟨rfl, rfl, rfl, rfl, rfl, rfl, rfl, fun {index c} hc =>
      ⟨c.link, hc, by simp [arrivals, Action.arrival]⟩⟩
  | rates => exact ⟨rfl, rfl, rfl, rfl, rfl, rfl, rfl, fun {index c} hc =>
      ⟨c.link, hc, by simp [arrivals]⟩⟩

theorem Alike.held (h : Alike r actions r') : r'.held = r.held := by
  have hchannels : r'.channels.map Channel.held = r.channels.map Channel.held := by
    apply List.ext_getElem?
    intro index
    rw [List.getElem?_map, List.getElem?_map]
    cases hc : r.channels[index]? with
    | none =>
      have hnone : r'.channels[index]? = none := by
        rw [List.getElem?_eq_none_iff, h.length]
        exact List.getElem?_eq_none_iff.mp hc
      rw [hnone]
    | some c =>
      obtain ⟨link, hc', -⟩ := h.channels hc
      rw [hc']
      rfl
  have hall := congrArg (List.filterMap id) hchannels
  simpa [List.filterMap_map, Function.comp_def, Receiver.held] using hall

theorem Aside.settled (h : Aside r actions r') (hsettled : r.Settled) : r'.Settled := by
  cases h with
  | came channel frame => exact settled_onLink hsettled channel _
  | closed channel => exact settled_onLink hsettled channel _
  | command command =>
    obtain ⟨mode, issued, hcommand⟩ := command_eq r command
    rw [hcommand]
    exact hsettled
  | rates => exact hsettled

/-- What no session changes. -/
structure Kept (r₀ r : Receiver) : Prop where
  order : r.order = r₀.order
  wireItem : r.wireItem = r₀.wireItem
  hostItem : r.hostItem = r₀.hostItem
  length : r.channels.length = r₀.channels.length
  converter : ∀ {index : Nat} {c₀ : Channel}, r₀.channels[index]? = some c₀ →
    ∃ c, r.channels[index]? = some c ∧ c.converter = c₀.converter
  settled : r.Settled

theorem Logged.kept (h : Logged r₀ actions turns r) (hsettled : r₀.Settled) : Kept r₀ r := by
  induction h with
  | start => exact ⟨rfl, rfl, rfl, rfl, fun {_ c₀} hc₀ => ⟨c₀, hc₀, rfl⟩, hsettled⟩
  | aside h haside ih =>
    have halike := haside.alike
    refine ⟨halike.order.trans ih.order, halike.wireItem.trans ih.wireItem,
      halike.hostItem.trans ih.hostItem, halike.length.trans ih.length, fun {index c₀} hc₀ => ?_,
      haside.settled ih.settled⟩
    obtain ⟨c, hc, hsame⟩ := ih.converter hc₀
    obtain ⟨link, hc', -⟩ := halike.channels hc
    exact ⟨_, hc', hsame⟩
  | call h hrecv hcalled ih =>
    have hprogress := hcalled.progress ih.settled
    have hhistory := hprogress.history
    refine ⟨(order_of_setup hhistory.setup).trans ih.order,
      (wireItem_of_setup hhistory.setup).trans ih.wireItem,
      (hostItem_of_setup hhistory.setup).trans ih.hostItem,
      hhistory.length_channels.trans ih.length, fun {index c₀} hc₀ => ?_, hprogress.settled⟩
    obtain ⟨c, hc, hsame⟩ := ih.converter hc₀
    obtain ⟨c', hc', hsame'⟩ := hhistory.exists_channel hc
    exact ⟨c', hc', hsame'.trans hsame⟩

theorem Logged.run (h : Logged r₀ actions turns r) (hsettled : r₀.Settled)
    (hchannels : r₀.channels ≠ []) (hrun : Run r actions' r') :
    ∃ turns', Logged r₀ (actions ++ actions') (turns ++ turns') r' := by
  induction hrun with
  | start => exact ⟨[], by simpa using h⟩
  | came _ index frame ih =>
    obtain ⟨turns', ih⟩ := ih
    exact ⟨turns', by simpa using ih.aside (.came index frame)⟩
  | closed _ index ih =>
    obtain ⟨turns', ih⟩ := ih
    exact ⟨turns', by simpa using ih.aside (.closed index)⟩
  | command _ command ih =>
    obtain ⟨turns', ih⟩ := ih
    exact ⟨turns', by simpa using ih.aside (.command command)⟩
  | @call _ r r' _ call hrecv ih =>
    obtain ⟨turns', ih⟩ := ih
    have hkept := ih.kept hsettled
    have hsome := channels_ne_nil hkept.length hchannels
    obtain ⟨es, shares, met, hcalled⟩ := recv_called hkept.settled hsome hrecv
    exact ⟨turns' ++ [⟨r, call, es, shares, met, r'⟩], by
      simpa using ih.call (t := ⟨r, call, es, shares, met, r'⟩) hrecv hcalled⟩

/-- Every session has a log. -/
theorem Session.logged (h : Session r₀ actions r) (hsettled : r₀.Settled)
    (hchannels : r₀.channels ≠ []) : ∃ turns, Logged r₀ actions turns r := by
  induction h with
  | start => exact ⟨[], .start⟩
  | run _ hrun ih =>
    obtain ⟨turns, ih⟩ := ih
    obtain ⟨turns', hlogged⟩ := ih.run hsettled hchannels hrun
    exact ⟨_, hlogged⟩
  | rates _ tickRate sampleRate ih =>
    obtain ⟨turns, ih⟩ := ih
    exact ⟨turns, by simpa using ih.aside (.rates tickRate sampleRate)⟩

/-! ## What a log says -/

theorem Logged.calls (h : Logged r₀ actions turns r) : turns.map Turn.call = callsOf actions := by
  induction h with
  | start => rfl
  | aside _ haside ih =>
    rw [ih, callsOf, callsOf, List.filterMap_append, ← callsOf, ← callsOf, haside.alike.nocall,
      List.append_nil]
  | call _ _ _ ih =>
    rw [List.map_append, ih, callsOf_snoc]
    rfl

/-- A turn comes after the turns before it. -/
theorem Logged.turn (h : Logged r₀ actions turns r) {before behind : List Turn} {t : Turn}
    (hturns : turns = before ++ t :: behind) :
    ∃ actions', Logged r₀ actions' before t.before ∧
      Called t.before t.call t.events t.shares t.met t.after := by
  induction h generalizing behind with
  | start => simp at hturns
  | aside _ _ ih => exact ih hturns
  | @call actions turns t' h _ hcalled ih =>
    rcases List.eq_nil_or_concat behind with rfl | ⟨behind', u, rfl⟩
    · obtain ⟨rfl, hsame⟩ := List.append_inj' hturns rfl
      cases hsame
      exact ⟨actions, h, hcalled⟩
    · rw [List.concat_eq_append, ← List.cons_append, ← List.append_assoc] at hturns
      exact ih (List.append_inj' hturns rfl).1

theorem Logged.of_mem (h : Logged r₀ actions turns r) {t : Turn} (ht : t ∈ turns) :
    ∃ actions' turns', Logged r₀ actions' turns' t.before ∧
      Called t.before t.call t.events t.shares t.met t.after := by
  obtain ⟨before, behind, hturns⟩ := List.append_of_mem ht
  obtain ⟨actions', hlogged, hcalled⟩ := h.turn hturns
  exact ⟨actions', before, hlogged, hcalled⟩

/-- The frames that came in on a link were taken in order, and the others are on it still. -/
theorem Logged.frames (h : Logged r₀ actions turns r) (hsettled : r₀.Settled) {c₀ : Channel}
    (hc₀ : r₀.channels[index]? = some c₀) :
    ∃ c, r.channels[index]? = some c ∧
      c₀.link.frames ++ arrivals index actions = takenIn index turns ++ c.link.frames := by
  induction h with
  | start => exact ⟨c₀, hc₀, by simp [arrivals, takenIn]⟩
  | aside _ haside ih =>
    obtain ⟨c, hc, hframes⟩ := ih
    obtain ⟨link, hc', hlink⟩ := haside.alike.channels hc
    refine ⟨_, hc', ?_⟩
    rw [hlink, ← List.append_assoc, ← hframes, List.append_assoc, arrivals, arrivals, arrivals,
      List.filterMap_append]
  | call h _ hcalled ih =>
    obtain ⟨c, hc, hframes⟩ := ih
    have hprogress := hcalled.progress (h.kept hsettled).settled
    obtain ⟨c', hc', htaking⟩ := hprogress.history.taking hc
    rw [hprogress.quiet, List.append_nil] at htaking
    refine ⟨c', hc', ?_⟩
    rw [arrivals_snoc, takenIn_append, takenIn_singleton, List.append_assoc, ← htaking, ← hframes]
    simp [Action.arrival]

/-- A packet held is in one of the frames taken. -/
theorem Logged.source (h : Logged r₀ actions turns r) (hfresh : ∀ c ∈ r₀.channels, r₀.Fresh c)
    {c : Channel} {p : HeldPacket} (hc : r.channels[index]? = some c) (hp : c.held = some p) :
    ∃ frame ∈ takenIn index turns, packetOf r₀.order frame = some p.part.packet := by
  induction h generalizing c p with
  | start =>
    rw [(hfresh c (List.mem_of_getElem? hc)).held] at hp
    cases hp
  | @aside _ _ _ r r' h haside ih =>
    have halike := haside.alike
    obtain ⟨hlt, -⟩ := List.getElem?_eq_some_iff.mp hc
    rw [halike.length] at hlt
    have hd := List.getElem?_eq_getElem hlt
    obtain ⟨link, hd', -⟩ := halike.channels hd
    cases hc.symm.trans hd'
    exact ih hd hp
  | call h _ hcalled ih =>
    have hkept := h.kept (settled_of_fresh hfresh)
    rw [takenIn_append, takenIn_singleton]
    rcases (hcalled.progress hkept.settled).history.source hc hp with
      ⟨d, q, hd, hq, hsame⟩ | ⟨frame, hframe, hcame⟩
    · obtain ⟨frame, hframe, hpacket⟩ := ih hd hq
      exact ⟨frame, List.mem_append_left _ hframe, hsame.packet ▸ hpacket⟩
    · exact ⟨frame, List.mem_append_right _ hframe, hkept.order ▸ hcame.packet⟩

/-- What a turn hands out of a channel is in frames taken by then. -/
theorem Logged.sources (h : Logged r₀ actions turns r) (hfresh : ∀ c ∈ r₀.channels, r₀.Fresh c)
    {before behind : List Turn} {t : Turn} (hturns : turns = before ++ t :: behind) {s : Share}
    (hs : s ∈ t.shares) {p : HeldPacket} (hp : s.held[index]? = some p) :
    ∃ frame ∈ takenIn index (before ++ [t]), packetOf r₀.order frame = some p.part.packet := by
  obtain ⟨actions', hlogged, hcalled⟩ := h.turn hturns
  have hkept := hlogged.kept (settled_of_fresh hfresh)
  rw [takenIn_append, takenIn_singleton]
  cases hcalled.handed hkept.settled s hs with
  | @intro es rest x _ _ _ _ hevents hhistory hfull _ =>
    obtain ⟨c, hc, hheld⟩ := hfull.exists_channel hp
    rcases hhistory.source hc hheld with ⟨d, q, hd, hq, hsame⟩ | ⟨frame, hframe, hcame⟩
    · obtain ⟨frame, hframe, hpacket⟩ := hlogged.source hfresh hd hq
      exact ⟨frame, List.mem_append_left _ hframe, hsame.packet ▸ hpacket⟩
    · refine ⟨frame, List.mem_append_right _ ?_, hkept.order ▸ hcame.packet⟩
      rw [hevents, List.filterMap_append]
      exact List.mem_append_left _ hframe

/-- A turn returns the samples of its shares. -/
structure Returns (r₀ : Receiver) (t : Turn) : Prop where
  samples : t.call.got.samples = samplesIn t.shares
  delivered : ∀ {index : Nat} {c₀ : Channel}, r₀.channels[index]? = some c₀ →
    t.call.delivered index r₀.hostItem = bytesOf c₀.converter index t.shares

theorem Logged.returns (h : Logged r₀ actions turns r) (hfresh : ∀ c ∈ r₀.channels, r₀.Fresh c) :
    ∀ t ∈ turns, Returns r₀ t := by
  intro t ht
  obtain ⟨_, _, hlogged, hcalled⟩ := h.of_mem ht
  have hkept := hlogged.kept (settled_of_fresh hfresh)
  refine ⟨hcalled.samples, fun {index c₀} hc₀ => ?_⟩
  obtain ⟨c, hc, hsame⟩ := hkept.converter hc₀
  have hreads := (hfresh c₀ (List.mem_of_getElem? hc₀)).reads
  rw [← hsame] at hreads ⊢
  exact hcalled.delivered hkept.settled hc hreads

end

end SampleStream.Receiver
