import SampleStream.Proofs.Receive.Call
import SampleStream.Proofs.Stream.Reading

/-!
# Runs of a receive stream

A run starts at a stream that was just set up. Frames come in on its links, links
are closed, commands are given, and calls are made, in any order. A frame that
comes in while a call waits for it counts as coming in before the call: a call
takes the frames of a link in order, and it is over as soon as it finds a link
empty. Every run has a history (`Run.recorded`), whose ledgers say which samples
its calls returned.
-/

namespace SampleStream.Receive

/-- A call that returned, and what it returned. -/
structure Call where
  buffers : List Bytes
  wanted : Nat
  onePacket : Bool
  got : Receiver.Received

namespace Call

/-- The bytes of the samples that a call returned for a channel. -/
def delivered (index hostItem : Nat) (call : Call) : Bytes :=
  (call.got.buffers[index]?.getD []).take (call.got.samples * hostItem)

/-- A call keeps to the room it was given: it returns no more samples than were
wanted, and its buffers keep their sizes and everything behind the samples. -/
structure KeepsWithin (hostItem : Nat) (call : Call) : Prop where
  bound : call.got.samples ≤ call.wanted
  count : call.got.buffers.length = call.buffers.length
  behind : ∀ {index : Nat} {before after : Bytes}, call.buffers[index]? = some before →
    call.got.buffers[index]? = some after → after.length = before.length ∧
      after.drop (call.got.samples * hostItem) = before.drop (call.got.samples * hostItem)

end Call

/-- One thing that is done with a receive stream, by the far end or by a caller. -/
inductive Action where
  /-- A frame comes in on the link of a channel. -/
  | came (channel : Nat) (frame : Bytes)
  /-- The far end closes the link of a channel. -/
  | closed (channel : Nat)
  | command (command : StreamCommand)
  | call (call : Call)

namespace Action

/-- The frame that comes in on the link of a channel, if one does. -/
def arrival (index : Nat) : Action → Option Bytes
  | came channel frame => if channel = index then some frame else none
  | _ => none

def call? : Action → Option Call
  | call c => some c
  | _ => none

end Action

/-- The calls among actions. -/
def callsOf (actions : List Action) : List Call := actions.filterMap Action.call?

/-- The frames that come in on the link of a channel. -/
def arrivals (index : Nat) (actions : List Action) : List Bytes :=
  actions.filterMap (Action.arrival index)

/-- The bytes of all samples that the calls returned for a channel. -/
def deliveredBytes (index hostItem : Nat) (actions : List Action) : Bytes :=
  (callsOf actions).flatMap (Call.delivered index hostItem)

theorem filterMap_concat {α β : Type} (f : α → Option β) (as : List α) (a : α) :
    (as ++ [a]).filterMap f = as.filterMap f ++ (f a).toList := by
  rw [List.filterMap_append, List.filterMap_eq_flatMap_toList f [a], List.flatMap_singleton]

@[simp] theorem callsOf_snoc (actions : List Action) (a : Action) :
    callsOf (actions ++ [a]) = callsOf actions ++ a.call?.toList :=
  filterMap_concat _ _ _

@[simp] theorem arrivals_snoc (index : Nat) (actions : List Action) (a : Action) :
    arrivals index (actions ++ [a]) = arrivals index actions ++ (a.arrival index).toList :=
  filterMap_concat _ _ _

theorem deliveredBytes_snoc (index hostItem : Nat) (actions : List Action) (a : Action) :
    deliveredBytes index hostItem (actions ++ [a]) =
      deliveredBytes index hostItem actions ++
        a.call?.toList.flatMap (Call.delivered index hostItem) := by
  rw [deliveredBytes, callsOf_snoc, List.flatMap_append, deliveredBytes]

end SampleStream.Receive

namespace SampleStream.Receiver
open Receive

/-- A stream as it is after it was set up: with any rates, and with its commands
reaching the device or not. -/
def Built (o : StreamOptions) (settings : Settings) (links : List Link) (r : Receiver) : Prop :=
  ∃ made, create o settings links = .ok made ∧
    r = { made with tickRate := r.tickRate, sampleRate := r.sampleRate, issuing := r.issuing }

/-- The actions that led from a stream to another. No call among them ends with an
error, which would be an answer without samples. -/
inductive Run (r₀ : Receiver) : List Action → Receiver → Prop where
  | start : Run r₀ [] r₀
  | came {actions : List Action} {r : Receiver} (h : Run r₀ actions r) (index : Nat)
    (frame : Bytes) :
    Run r₀ (actions ++ [.came index frame]) (r.onLink index (·.carry frame))
  | closed {actions : List Action} {r : Receiver} (h : Run r₀ actions r) (index : Nat) :
    Run r₀ (actions ++ [.closed index]) (r.onLink index Link.closeSender)
  | command {actions : List Action} {r : Receiver} (h : Run r₀ actions r)
    (command : StreamCommand) : Run r₀ (actions ++ [.command command]) (r.command command)
  | call {actions : List Action} {r r' : Receiver} (h : Run r₀ actions r) {call : Call}
    (hrecv : r.recv call.buffers call.wanted call.onePacket = some (r', .ok call.got)) :
    Run r₀ (actions ++ [.call call]) r'

/-! ## The stream at the start -/

/-- A channel that has not taken a frame yet and whose converter fits the stream. -/
structure Fresh (r : Receiver) (c : Channel) : Prop where
  lastCount : c.lastCount = none
  held : c.held = none
  reads : c.converter.Reads r.wireItem r.hostItem

theorem Fresh.tracks {r : Receiver} {c : Channel} (h : r.Fresh c) (order : ByteOrder)
    (wireItem : Nat) : Ledger.Tracks order wireItem {} c where
  lastCount := h.lastCount
  held := by rw [h.held]; rfl
  packets := rfl
  sizes := by simp [Ledger.parts]
  fates := by simp

/-- What a stream is set up with. -/
theorem create_eq_ok {o : StreamOptions} {settings : Settings} {links : List Link} {r : Receiver}
    (h : create o settings links = .ok r) :
    ∃ c scalar, o.conversion settings .receive = .ok c ∧ r.order = c.order ∧
      r.wireItem = c.wireItem ∧ r.hostItem = c.hostItem ∧ r.pending = none ∧ r.warnings = [] ∧
      r.channels = links.map (fun link =>
        { link, converter := (Sample.Converter.start c.method).setScalar scalar }) := by
  simp only [create, bind_eq_ok] at h
  obtain ⟨_, -, c, hconversion, fullScale, -, asked, -, sampleRate, -, h⟩ := h
  cases h
  exact ⟨c, _, hconversion, rfl, rfl, rfl, rfl, rfl, rfl⟩

/-- The scalar from the wire. -/
theorem scalar_of_create {o : StreamOptions} {settings : Settings} {links : List Link}
    {r : Receiver} (h : create o settings links = .ok r) :
    ∃ c fullScale, o.conversion settings .receive = .ok c ∧
      o.fullScale settings.fullScale = .ok fullScale ∧
      r.channels = links.map (fun link =>
        { link
          converter := (Sample.Converter.start c.method).setScalar
            (fullScale / Sample.peak o.wireFormat) }) := by
  simp only [create, bind_eq_ok, StreamOptions.setup_eq_ok] at h
  obtain ⟨_, -, c, hconversion, fullScale, hscale, asked, -, sampleRate, -, h⟩ := h
  cases h
  exact ⟨c, fullScale, hconversion, hscale, rfl⟩

theorem Built.fresh {o : StreamOptions} {settings : Settings} {links : List Link} {r : Receiver}
    (h : Built o settings links r) : ∀ c ∈ r.channels, r.Fresh c := by
  obtain ⟨made, hmade, hr⟩ := h
  obtain ⟨conversion, scalar, hconversion, -, hwire, hhost, -, -, hchannels⟩ := create_eq_ok hmade
  intro c hc
  rw [hr] at hc ⊢
  rw [show _ = made.channels from rfl, hchannels] at hc
  obtain ⟨link, -, rfl⟩ := List.mem_map.mp hc
  refine ⟨rfl, rfl, ?_⟩
  show Sample.Converter.Reads _ made.wireItem made.hostItem
  rw [hwire, hhost]
  exact (StreamOptions.reads_of_conversion hconversion).setScalar scalar

theorem Built.pending {o : StreamOptions} {settings : Settings} {links : List Link} {r : Receiver}
    (h : Built o settings links r) : r.pending = none := by
  obtain ⟨made, hmade, hr⟩ := h
  obtain ⟨-, -, -, -, -, -, hpending, -⟩ := create_eq_ok hmade
  rw [hr]
  exact hpending

theorem Built.warnings {o : StreamOptions} {settings : Settings} {links : List Link} {r : Receiver}
    (h : Built o settings links r) : r.warnings = [] := by
  obtain ⟨made, hmade, hr⟩ := h
  obtain ⟨-, -, -, -, -, -, -, hwarnings, -⟩ := create_eq_ok hmade
  rw [hr]
  exact hwarnings

theorem Built.markers {o : StreamOptions} {settings : Settings} {links : List Link} {r : Receiver}
    (h : Built o settings links r) : r.markers = [] := by
  obtain ⟨made, hmade, hr⟩ := h
  simp only [create, bind_eq_ok] at hmade
  obtain ⟨_, -, c, -, fullScale, -, asked, -, sampleRate, -, hmade⟩ := hmade
  cases hmade
  rw [hr]

theorem Built.channels_ne_nil {o : StreamOptions} {settings : Settings} {links : List Link}
    {r : Receiver} (h : Built o settings links r) : r.channels ≠ [] := by
  obtain ⟨made, hmade, hr⟩ := h
  simp only [create, bind_eq_ok] at hmade
  obtain ⟨_, hlinks, c, -, fullScale, -, asked, -, sampleRate, -, hmade⟩ := hmade
  cases hmade
  rw [hr]
  simpa using (StreamOptions.checkLinks_eq_ok hlinks).2

theorem settled_of_fresh {r : Receiver} (h : ∀ c ∈ r.channels, r.Fresh c) : r.Settled := by
  intro _ time htime
  have hheld : r.held = [] := List.filterMap_eq_nil_iff.mpr fun c hc => (h c hc).held
  rw [hheld]
  rfl

/-! ## One call -/

/-- The room that a call has: none is needed for what it reports without samples,
else there is a buffer for every channel. -/
theorem recv_room {r r' : Receiver} {buffers : List Bytes} {wanted : Nat} {onePacket : Bool}
    {got : Received} (h : r.recv buffers wanted onePacket = some (r', .ok got)) :
    (got.samples = 0 ∧ got.buffers = buffers) ∨
      (buffers.length = r.channels.length ∧ ∀ b ∈ buffers, wanted * r.hostItem ≤ b.length) := by
  unfold recv at h
  split at h
  · cases h
    exact .inl ⟨rfl, rfl⟩
  · split at h
    · cases h
    · rename_i hlength
      simp only [bind, Option.bind_eq_some_iff] at h
      obtain ⟨need, hneed, h⟩ := h
      obtain ⟨-, rfl⟩ := mulSize_eq_some.mp hneed
      split at h
      · cases h
      · rename_i hroom
        refine .inr ⟨by simpa using hlength, fun b hb => ?_⟩
        simpa using List.find?_eq_none.mp hroom b hb

/-- What a call returned for a channel are the samples by which the ledger of the
channel grew, as many as for every other channel. -/
theorem Progress.delivered {r r' : Receiver} {es : List Event} {call : Call}
    (hp : Progress r call.buffers call.wanted es r' call.got)
    (h : r.recv call.buffers call.wanted call.onePacket = some (r', .ok call.got)) {index : Nat}
    {c : Channel} (hc : r.channels[index]? = some c) {l : Ledger}
    (ht : l.Tracks r.order r.wireItem c) {wire : Nat} (hreads : c.converter.Reads wire r.hostItem) :
    ∃ out, (l.recordAll r.order r.wireItem index es).out = l.out ++ out ∧
      out.length = call.got.samples ∧
      call.delivered index r.hostItem = decoded c.converter out := by
  obtain ⟨out, hout, hlength⟩ := hp.history.out hc ht
  rw [hp.counts] at hlength
  refine ⟨out, hout, hlength, ?_⟩
  rcases recv_room h with ⟨hnone, -⟩ | ⟨hcount, -⟩
  · rw [hnone, List.length_eq_zero_iff] at hlength
    rw [hlength, Call.delivered, hnone]
    simp [decoded]
  · obtain ⟨hlt, -⟩ := List.getElem?_eq_some_iff.mp hc
    have hbuffer := List.getElem?_eq_getElem (hcount ▸ hlt)
    obtain ⟨out', hout', hgot⟩ := hp.written hc hbuffer ht hreads
    rw [hout', List.append_cancel_left_eq] at hout
    subst hout
    rw [Call.delivered, hgot, Option.getD_some, List.take_left']
    rw [length_decoded hreads, hlength]

theorem Progress.keepsWithin {r r' : Receiver} {es : List Event} {call : Call}
    (hp : Progress r call.buffers call.wanted es r' call.got)
    (h : r.recv call.buffers call.wanted call.onePacket = some (r', .ok call.got))
    (hchannels : ∀ c ∈ r.channels, c.converter.Reads r.wireItem r.hostItem ∧
      ∃ l : Ledger, l.Tracks r.order r.wireItem c) :
    call.KeepsWithin r.hostItem := by
  refine ⟨hp.bound, hp.length, fun {index before after} hbefore hafter => ?_⟩
  rcases recv_room h with ⟨-, hsame⟩ | ⟨hcount, hroom⟩
  · rw [hsame, hbefore] at hafter
    cases hafter
    exact ⟨rfl, rfl⟩
  · obtain ⟨hlt, -⟩ := List.getElem?_eq_some_iff.mp hbefore
    have hc := List.getElem?_eq_getElem (l := r.channels) (hcount ▸ hlt)
    obtain ⟨hreads, l, ht⟩ := hchannels _ (List.mem_of_getElem? hc)
    obtain ⟨out, hout, hgot⟩ := hp.written hc hbefore ht hreads
    obtain ⟨out', hout', hlength⟩ := hp.history.out hc ht
    rw [hout, List.append_cancel_left_eq] at hout'
    subst hout'
    have hdecoded := length_decoded hreads out
    rw [hlength, hp.counts] at hdecoded
    have hfits : call.got.samples * r.hostItem ≤ before.length :=
      Nat.le_trans (Nat.mul_le_mul_right _ hp.bound) (hroom before (List.mem_of_getElem? hbefore))
    cases hafter.symm.trans hgot
    refine ⟨?_, List.drop_left' hdecoded⟩
    rw [List.length_append, List.length_drop, hdecoded]
    omega

/-! ## All calls -/

/-- A history that records a run: the frames that came in, and the samples that
the calls returned. -/
structure Recorded (r₀ : Receiver) (actions : List Action) (es : List Event) (r : Receiver) :
    Prop where
  history : History r₀ es r
  settled : r.Settled
  frames : ∀ index, es.filterMap (Event.arrival index) = arrivals index actions
  counts : (es.map Event.count).sum = ((callsOf actions).map (·.got.samples)).sum
  delivered : ∀ {index : Nat} {c : Channel}, r₀.channels[index]? = some c →
    deliveredBytes index r₀.hostItem actions =
      decoded c.converter (Ledger.recordAll r₀.order r₀.wireItem index {} es).out
  calls : ∀ call ∈ callsOf actions, call.KeepsWithin r₀.hostItem

namespace Recorded

variable {r₀ r : Receiver} {actions : List Action} {es : List Event}

/-- Something that is not a call and hands nothing out. -/
theorem other (h : Recorded r₀ actions es r) {e : Event} {a : Action} {r' : Receiver}
    (hstep : Step r e r') (hsettled : r'.Settled) (hnocall : a.call? = none)
    (hcount : e.count = 0) (harrival : ∀ index, e.arrival index = a.arrival index)
    (hout : ∀ index (l : Ledger), l.record r₀.order r₀.wireItem index e = l) :
    Recorded r₀ (actions ++ [a]) (es ++ [e]) r' where
  history := h.history.step hstep
  settled := hsettled
  frames index := by
    rw [arrivals_snoc, List.filterMap_append, h.frames, ← harrival]
    cases he : e.arrival index <;> simp [he]
  counts := by simp [hnocall, hcount, h.counts]
  delivered hc := by
    rw [Ledger.recordAll_snoc, hout, ← h.delivered hc, deliveredBytes_snoc, hnocall]
    simp
  calls := by simpa [hnocall] using h.calls

end Recorded

theorem settled_onLink {r : Receiver} (h : r.Settled) (index : Nat) (f : Link → Link) :
    (r.onLink index f).Settled := by
  have hheld : (r.onLink index f).channels.map Channel.held = r.channels.map Channel.held := by
    apply List.ext_getElem?
    intro j
    simp only [onLink, List.getElem?_map, List.getElem?_modify]
    split <;> simp [Function.comp_def]
  have hsame : (r.onLink index f).held = r.held := by
    have := congrArg (List.filterMap id) hheld
    simpa [List.filterMap_map, Function.comp_def, held] using this
  intro hfull time htime
  rw [newest, hsame] at htime
  rw [hsame]
  refine h (fun c hc => ?_) time htime
  have hmem : c.held ∈ (r.onLink index f).channels.map Channel.held :=
    hheld ▸ List.mem_map_of_mem hc
  obtain ⟨d, hd, hdc⟩ := List.mem_map.mp hmem
  rw [← hdc]
  exact hfull d hd

namespace Recorded

variable {r₀ r r' : Receiver} {actions : List Action} {es : List Event}

theorem command (h : Recorded r₀ actions es r) (command : StreamCommand) :
    Recorded r₀ (actions ++ [.command command]) es (r.command command) := by
  obtain ⟨mode, issued, hcommand⟩ :
      ∃ mode issued, r.command command = { r with mode, issued } := by
    unfold Receiver.command issue
    split
    · exact ⟨_, _, rfl⟩
    · exact ⟨_, r.issued, rfl⟩
  rw [hcommand]
  refine ⟨h.history.aside r.pending mode issued, h.settled, fun index => ?_, ?_, fun hc => ?_, ?_⟩
  · simp [h.frames, Action.arrival]
  · simp [h.counts, Action.call?]
  · simp [← h.delivered hc, deliveredBytes_snoc, Action.call?]
  · simpa [Action.call?] using h.calls

/-- A channel of the start as it is now, with its ledger. -/
theorem channel (h : Recorded r₀ actions es r) (hfresh : ∀ c ∈ r₀.channels, r₀.Fresh c)
    {index : Nat} {c : Channel} (hc : r₀.channels[index]? = some c) :
    ∃ c', r.channels[index]? = some c' ∧ c'.converter = c.converter ∧
      c'.converter.Reads r.wireItem r.hostItem ∧
      (Ledger.recordAll r₀.order r₀.wireItem index {} es).Tracks r.order r.wireItem c' := by
  have hc₀ := hfresh c (List.mem_of_getElem? hc)
  obtain ⟨c', hc', ht, -⟩ := h.history.tracks hc (hc₀.tracks _ _)
  have hconverter := h.history.converter hc hc'
  refine ⟨c', hc', hconverter, ?_, ?_⟩
  · rw [hconverter, wireItem_of_setup h.history.setup, hostItem_of_setup h.history.setup]
    exact hc₀.reads
  · rw [order_of_setup h.history.setup, wireItem_of_setup h.history.setup]
    exact ht

theorem call (h : Recorded r₀ actions es r) (hfresh : ∀ c ∈ r₀.channels, r₀.Fresh c) {call : Call}
    (hrecv : r.recv call.buffers call.wanted call.onePacket = some (r', .ok call.got)) :
    ∃ more, Recorded r₀ (actions ++ [.call call]) (es ++ more) r' := by
  obtain ⟨more, hp⟩ := recv_progress h.settled hrecv
  have horder := order_of_setup h.history.setup
  have hwire := wireItem_of_setup h.history.setup
  have hhost := hostItem_of_setup h.history.setup
  refine ⟨more, h.history.trans hp.history, hp.settled, fun index => ?_, ?_,
    fun {index c} hc => ?_, ?_⟩
  · rw [List.filterMap_append, hp.quiet, h.frames, arrivals_snoc]
    rfl
  · simp [h.counts, hp.counts, Action.call?]
  · obtain ⟨c', hc', hconverter, hreads, ht⟩ := h.channel hfresh hc
    obtain ⟨out, hout, -, hdelivered⟩ := hp.delivered hrecv hc' ht hreads
    rw [horder, hwire] at hout
    rw [Ledger.recordAll_append, hout, decoded_append, ← h.delivered hc, ← hconverter,
      ← hdelivered, hhost, deliveredBytes_snoc]
    simp [Action.call?]
  · -- calls before this one kept within their buffers, and so does this one
    have hneat := hp.keepsWithin hrecv fun c hc => by
      obtain ⟨index, hindex⟩ := List.getElem?_of_mem hc
      obtain ⟨hlt, -⟩ := List.getElem?_eq_some_iff.mp hindex
      rw [h.history.length_channels] at hlt
      obtain ⟨c', hc', -, hreads, ht⟩ := h.channel hfresh (List.getElem?_eq_getElem hlt)
      cases hindex.symm.trans hc'
      exact ⟨hreads, _, ht⟩
    rw [hhost] at hneat
    intro call' hcall'
    rw [callsOf_snoc] at hcall'
    rcases List.mem_append.mp hcall' with hcall' | hcall'
    · exact h.calls call' hcall'
    · cases List.mem_singleton.mp hcall'
      exact hneat

end Recorded

/-- Every run has a history that records it. -/
theorem Run.recorded {r₀ r : Receiver} {actions : List Action}
    (hfresh : ∀ c ∈ r₀.channels, r₀.Fresh c) (hrun : Run r₀ actions r) :
    ∃ es, Recorded r₀ actions es r := by
  induction hrun with
  | start =>
    refine ⟨[], .refl r₀, settled_of_fresh hfresh, fun _ => rfl, rfl, fun _ => rfl, ?_⟩
    simp [callsOf]
  | came h index frame ih =>
    obtain ⟨es, ih⟩ := ih
    exact ⟨es ++ [.came index frame], ih.other (.came _ index frame)
      (settled_onLink ih.settled index _) rfl rfl (fun _ => rfl) fun _ _ => rfl⟩
  | closed h index ih =>
    obtain ⟨es, ih⟩ := ih
    exact ⟨es ++ [.closed index], ih.other (.closed _ index)
      (settled_onLink ih.settled index _) rfl rfl (fun _ => rfl) fun _ _ => rfl⟩
  | command h command ih =>
    obtain ⟨es, ih⟩ := ih
    exact ⟨es, ih.command command⟩
  | call h hrecv ih =>
    obtain ⟨es, ih⟩ := ih
    obtain ⟨more, hcall⟩ := ih.call hfresh hrecv
    exact ⟨es ++ more, hcall⟩

/-! ## Streams to try -/

/-- A stream of one channel with 16-bit samples on both sides. -/
def oneChannel : Receiver where
  channels := [{
    link := { depth := 4 }
    converter := (Sample.Converter.start (.compute (.unpackShorts .big .shorts))).setScalar
      (Real.ofNat 1 / Sample.peak "sc16") }]
  deviceChannels := [0]
  order := .big
  wireItem := 4
  hostItem := 4
  packetSamples := 364
  tickRate := Real.ofNat 100000000
  sampleRate := Real.ofNat 0
  alignmentThreshold := 1000

theorem built_oneChannel :
    Built { hostFormat := "sc16", wireFormat := "sc16" } {} [{ depth := 4 }] oneChannel :=
  ⟨oneChannel, rfl, rfl⟩

/-- A stream of two channels with 16-bit samples on both sides. -/
def twoChannels : Receiver where
  channels := List.replicate 2 {
    link := { depth := 4 }
    converter := (Sample.Converter.start (.compute (.unpackShorts .big .shorts))).setScalar
      (Real.ofNat 1 / Sample.peak "sc16") }
  deviceChannels := [0, 1]
  order := .big
  wireItem := 4
  hostItem := 4
  packetSamples := 364
  tickRate := Real.ofNat 100000000
  sampleRate := Real.ofNat 0
  alignmentThreshold := 1000

theorem built_twoChannels :
    Built { hostFormat := "sc16", wireFormat := "sc16", channels := [0, 1] } {}
      (List.replicate 2 { depth := 4 }) twoChannels :=
  ⟨twoChannels, rfl, rfl⟩

/-- The samples and the buffers of an answer that is no error, and the warnings. -/
def seen (answer : Checked Answer) : Option (Nat × List Bytes × List Warning) :=
  answer.bind fun a => a.2.toOption.map fun got => (got.samples, got.buffers, a.1.warnings)

theorem exists_of_seen {answer : Checked Answer} {samples : Nat} {buffers : List Bytes}
    {warnings : List Warning} (h : seen answer = some (samples, buffers, warnings)) :
    ∃ r got, answer = some (r, .ok got) ∧ got.samples = samples ∧ got.buffers = buffers ∧
      r.warnings = warnings := by
  simp only [seen, Option.bind_eq_some_iff, Option.map_eq_some_iff] at h
  obtain ⟨⟨r, result⟩, rfl, got, hgot, hseen⟩ := h
  cases result with
  | error e => cases hgot
  | ok got' =>
    cases hgot
    cases hseen
    exact ⟨r, got, rfl, rfl, rfl, rfl⟩

/-- What can be read off an answer that is no error, and off the stream after it. -/
theorem exists_of_answer {α : Type} {f : Receiver → Received → Option α} {answer : Checked Answer}
    {x : α} (h : answer.bind (fun a => a.2.toOption.bind (f a.1)) = some x) :
    ∃ r got, answer = some (r, .ok got) ∧ f r got = some x := by
  simp only [Option.bind_eq_some_iff] at h
  obtain ⟨⟨r, result⟩, rfl, got, hgot, hx⟩ := h
  cases result with
  | error e => cases hgot
  | ok got' =>
    cases hgot
    exact ⟨r, got, rfl, hx⟩

/-! ## Runs that are computed -/

/-- What is done with a receive stream, before a call has its answer. -/
inductive Request where
  | came (channel : Nat) (frame : Bytes)
  | closed (channel : Nat)
  | command (command : StreamCommand)
  | call (buffers : List Bytes) (wanted : Nat) (onePacket : Bool)

/-- The frame that comes in on the link of a channel, if one does. -/
def Request.arrival (index : Nat) : Request → Option Bytes
  | came channel frame => if channel = index then some frame else none
  | _ => none

/-- What a request comes to, if it is not a call that fails. -/
def act (r : Receiver) : Request → Option (Action × Receiver)
  | .came channel frame => some (.came channel frame, r.onLink channel (·.carry frame))
  | .closed channel => some (.closed channel, r.onLink channel Link.closeSender)
  | .command command => some (.command command, r.command command)
  | .call buffers wanted onePacket =>
    (r.recv buffers wanted onePacket).bind fun a =>
      a.2.toOption.map fun got => (.call ⟨buffers, wanted, onePacket, got⟩, a.1)

/-- What requests come to one after the other. -/
def actAll (r : Receiver) : List Request → Option (List Action × Receiver)
  | [] => some ([], r)
  | request :: rest =>
    (r.act request).bind fun x => (actAll x.2 rest).map fun y => (x.1 :: y.1, y.2)

theorem Run.act {r₀ r s : Receiver} {actions : List Action} {request : Request} {action : Action}
    (h : Run r₀ actions r) (hact : r.act request = some (action, s)) :
    Run r₀ (actions ++ [action]) s ∧ ∀ index, action.arrival index = request.arrival index := by
  cases request with
  | came channel frame =>
    cases hact
    exact ⟨h.came channel frame, fun _ => rfl⟩
  | closed channel =>
    cases hact
    exact ⟨h.closed channel, fun _ => rfl⟩
  | command command =>
    cases hact
    exact ⟨h.command command, fun _ => rfl⟩
  | call buffers wanted onePacket =>
    obtain ⟨⟨r', result⟩, hrecv, hgot⟩ := Option.bind_eq_some_iff.mp hact
    cases result with
    | error e => cases hgot
    | ok got =>
      cases hgot
      exact ⟨h.call hrecv, fun _ => rfl⟩

/-- Requests that come to something are a run, with the same frames coming in. -/
theorem Run.actAll {r₀ r s : Receiver} {actions actions' : List Action} {requests : List Request}
    (h : Run r₀ actions r) (hact : r.actAll requests = some (actions', s)) :
    Run r₀ (actions ++ actions') s ∧
      ∀ index, arrivals index actions' = requests.filterMap (Request.arrival index) := by
  induction requests generalizing r actions actions' with
  | nil =>
    cases hact
    exact ⟨by simpa using h, fun _ => rfl⟩
  | cons request rest ih =>
    obtain ⟨⟨action, r₁⟩, hfirst, hrest⟩ := Option.bind_eq_some_iff.mp hact
    obtain ⟨⟨more, s'⟩, hmore, hsame⟩ := Option.map_eq_some_iff.mp hrest
    cases hsame
    obtain ⟨hrun, hone⟩ := h.act hfirst
    obtain ⟨hall, harrivals⟩ := ih hrun hmore
    refine ⟨by simpa using hall, fun index => ?_⟩
    have hlater : more.filterMap (Action.arrival index) =
        rest.filterMap (Request.arrival index) := harrivals index
    rw [arrivals, List.filterMap_cons, List.filterMap_cons, hone, hlater]

/-- A run that is computed, and what can be read off it. -/
theorem exists_of_actAll {α : Type} {r : Receiver} {requests : List Request}
    {f : List Action × Receiver → α} {x : α} (h : (r.actAll requests).map f = some x) :
    ∃ actions s, r.actAll requests = some (actions, s) ∧ Run r actions s ∧
      (∀ index, arrivals index actions = requests.filterMap (Request.arrival index)) ∧
      f (actions, s) = x := by
  obtain ⟨⟨actions, s⟩, hact, hx⟩ := Option.map_eq_some_iff.mp h
  obtain ⟨hrun, harrivals⟩ := Run.start.actAll hact
  exact ⟨actions, s, hact, hrun, harrivals, hx⟩

end SampleStream.Receiver
