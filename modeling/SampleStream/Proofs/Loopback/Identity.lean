import SampleStream.Proofs.Loopback.Run

/-!
# From sender to receiver nothing changes

With 16-bit integers on the hosts and on the wire the samples that a send counted
come out at the far end as they went in, in order and none twice, however the calls
on the two ends follow each other and however the samples are cut into packets and
calls. The link and the packet held are all that is between what was sent and what
was received (`Follows`), and every call keeps it so (`Run.follows`).
-/

namespace SampleStream.Loopback
open Receive Sample

/-! ## Samples sent -/

/-- The samples of a send, each with whether a burst ends with it: the last of all
samples of the call does, if it was sent and the call ends a burst. -/
def Sending.samples (call : Sending) : List Token :=
  (List.range call.sent).map fun k =>
    ⟨Converter.shortsAt (call.buffers[0]?.getD []) k,
      call.metadata.endOfBurst && k + 1 == call.total⟩

def Action.samples : Action → List Token
  | send call => call.samples
  | recv _ => []

/-- All samples that the sends returned as sent. -/
def sentSamples (actions : List Action) : List Token := actions.flatMap Action.samples

theorem bytes_samples (buffer : Bytes) (ends : Nat → Bool) (count : Nat) :
    ((List.range count).map fun k => (⟨Converter.shortsAt buffer k, ends k⟩ : Token)).flatMap
      Token.bytes = buffer.take (count * 4) := by
  induction count with
  | zero => simp
  | succ count ih =>
    rw [List.range_succ, List.map_append, List.flatMap_append, ih, Nat.add_mul, Nat.one_mul,
      List.take_add]
    simp [Converter.shortsAt]

theorem bytes_sentSamples (actions : List Action) :
    (sentSamples actions).flatMap Token.bytes = sentBytes 4 actions := by
  rw [sentSamples, List.flatMap_assoc, sentBytes]
  congr 1
  funext a
  cases a with
  | send call => exact bytes_samples _ _ _
  | recv call => rfl

/-- The samples of a piece, the last of which ends a burst if the packet does. -/
def pieceSamples (m : Transmit.Metadata) (buffer : Bytes) (piece : Transmit.Piece) : List Token :=
  (List.range piece.samples).map fun k =>
    ⟨Converter.shortsAt buffer (piece.start + k), m.endOfBurst && k + 1 == piece.samples⟩

/-- The samples of the first pieces are the first samples. -/
theorem flatMap_pieceSamples {size total rounds : Nat} (hsize : 0 < size)
    (hrounds : rounds ≤ (Transmit.pieces size total).length) (m : Transmit.Metadata)
    (buffer : Bytes) :
    ((Transmit.pieces size total).take rounds).flatMap (fun piece =>
        pieceSamples (Transmitter.pieceMetadata m total piece) buffer piece) =
      (List.range (min total (rounds * size))).map fun k =>
        ⟨Converter.shortsAt buffer k, m.endOfBurst && k + 1 == total⟩ := by
  refine Eq.trans (List.flatMap_congr fun piece hpiece => ?_)
    (Transmit.flatMap_pieces hsize hrounds id rfl (fun _ _ => rfl) fun k =>
      (⟨Converter.shortsAt buffer k, m.endOfBurst && k + 1 == total⟩ : Token))
  obtain ⟨j, hj⟩ := List.getElem?_of_mem (List.mem_of_mem_take hpiece)
  have heq := Transmit.getElem?_pieces hj
  have hmore := (Transmit.lt_length_pieces hsize).mp (List.getElem?_eq_some_iff.mp hj).1
  apply List.map_congr_left
  intro k hk
  have hk := List.mem_range.mp hk
  -- the last sample of the last piece is the last one of all
  have hlast : (m.endOfBurst && piece.start + piece.samples == total &&
      k + 1 == piece.samples) = (m.endOfBurst && piece.start + k + 1 == total) := by
    rw [Bool.and_assoc]
    congr 1
    rw [heq] at hk ⊢
    rw [Bool.eq_iff_iff]
    simp only [Bool.and_eq_true, beq_iff_eq] at hk ⊢
    omega
  rw [Transmitter.pieceMetadata, hlast]

/-! ## Integers on both sides -/

theorem readsBack_shorts {p : Transmit.Packing} {order : ByteOrder} (hitem : p.wireItem = 4)
    (scalar scalar' : Float) :
    ReadsBack p (.scaled (.packShorts order .shorts) scalar)
      (.scaled (.unpackShorts order .shorts) scalar') 4 pieceSamples := by
  intro c m buffer frame payload piece h hconverter hholds hsamples
  have hwords : p.payloadWords piece.samples = piece.samples := by
    rw [Transmit.Packing.payloadWords, hitem]
    omega
  have hconverted := hholds.converted
  rw [hwords, hconverter] at hconverted
  have hlength : payload.length / 4 = piece.samples := by
    rw [Converter.length_convert hconverted, List.length_replicate]
    omega
  rw [Content.tokens, hlength]
  refine ⟨?_, hsamples⟩
  rw [sampleTokens, pieceSamples, Nat.sub_zero]
  apply List.map_congr_left
  intro k hk
  rw [Nat.zero_add, Converter.sampleAt_of_convert hconverted (List.mem_range.mp hk),
    hholds.endOfBurst]

theorem sender_shorts {o : StreamOptions} {settings : Settings} {link : Link} {t : Transmitter}
    (h : Transmitter.create o settings [link] = some (.ok t)) (hhost : o.hostFormat = "sc16")
    (hwire : o.wireFormat = "sc16") :
    0 < t.packetSamples ∧ t.packing.wireItem = 4 ∧ ∃ c scalar, t.channels = [c] ∧ c.link = link ∧
      c.count = 0 ∧ c.converter = .scaled (.packShorts t.packing.order .shorts) scalar := by
  obtain ⟨p, hplan, horder, hitem, -, hsize, hchannels⟩ := Transmitter.create_eq_ok h
  obtain ⟨hlength, hconversion, hpos⟩ := Transmitter.plan_eq_ok hplan
  obtain ⟨hwireItem, -, hmethod⟩ := StreamOptions.conversion_shorts hhost hwire hconversion
  obtain ⟨channel, hchannel⟩ := List.length_eq_one_iff.mp hlength.symm
  rw [hchannel, hmethod, ← horder] at hchannels
  rw [hsize]
  exact ⟨hpos, hitem.trans hwireItem, _, p.scalar, hchannels, rfl, rfl, rfl⟩

theorem receiver_shorts {o : StreamOptions} {settings : Settings} {link : Link} {r : Receiver}
    (h : Receiver.Built o settings [link] r) (hhost : o.hostFormat = "sc16")
    (hwire : o.wireFormat = "sc16") :
    r.wireItem = 4 ∧ r.hostItem = 4 ∧ ∃ d scalar, r.channels = [d] ∧ d.link = link ∧
      d.converter = .scaled (.unpackShorts r.order .shorts) scalar := by
  obtain ⟨made, hmade, hr⟩ := h
  obtain ⟨conversion, scalar, hconversion, horder, hitem, hhostItem, -, -, hchannels⟩ :=
    Receiver.create_eq_ok hmade
  obtain ⟨hwireItem, hhostItem', hmethod⟩ := StreamOptions.conversion_shorts hhost hwire hconversion
  rw [hmethod, ← horder] at hchannels
  -- the rates are all that may differ from the set-up
  rw [hr]
  exact ⟨hitem.trans hwireItem, hhostItem.trans hhostItem', _, scalar, hchannels, rfl, rfl⟩

/-- Streams that were just set up are coupled, and nothing is between them. -/
theorem SetUp.coupled {o o' : StreamOptions} {settings settings' : Settings} {link : Link}
    {l : Loopback} (h : l.SetUp o o' settings settings' link)
    (hhost : o.hostFormat = "sc16") (hwire : o.wireFormat = "sc16")
    (hhost' : o'.hostFormat = "sc16") (hwire' : o'.wireFormat = "sc16") :
    l.receiver.hostItem = 4 ∧ ∃ c d, l.Coupled pieceSamples c d ∧ l.pending d = [] := by
  obtain ⟨hsize, hitem, c, scalar, hchannels, hlink, hcount, hconverter⟩ :=
    sender_shorts h.sender hhost hwire
  obtain ⟨hitem', hhostItem, d, scalar', hchannels', hlink', hconverter'⟩ :=
    receiver_shorts h.receiver hhost' hwire'
  refine ⟨hhostItem, c, d, h.coupled_of hsize hchannels hlink hcount hchannels' hlink' ?_⟩
  rw [hitem', hconverter, hconverter', h.order]
  exact readsBack_shorts hitem scalar scalar'

/-! ## All calls -/

/-- The receives returned the first of the samples sent, and the others are still to
come. -/
structure Follows (actions : List Action) (l : Loopback) (c : Transmit.Channel)
    (d : Receive.Channel) (out : List Token) : Prop where
  coupled : l.Coupled pieceSamples c d
  hostItem : l.receiver.hostItem = 4
  sent : sentSamples actions = out ++ l.pending d
  returned : out.length = samplesReturned actions
  received : out.flatMap Token.bytes = receivedBytes 4 actions

section
variable {actions : List Action} {l l' : Loopback} {c : Transmit.Channel} {d : Receive.Channel}
  {out : List Token}

/-- What a receive may tell that returned `got` after `actions`: no gap, no condition
but that nothing came in time, and the end of a burst just if its last sample is
among those returned. -/
structure Tells (actions : List Action) (got : Receiver.Received) : Prop where
  outOfSequence : got.metadata.outOfSequence = false
  code : got.metadata.code = .none ∨ got.metadata.code = .timeout
  endOfBurst : got.metadata.endOfBurst =
    (((sentSamples actions).drop (samplesReturned actions)).take got.samples).any Token.endsBurst

theorem Follows.send {call : Sending} (h : Follows actions l c d out) (htotal : 0 < call.total)
    (hsend : l.send call.buffers call.total call.metadata = some (l', call.result)) :
    ∃ c' d', Follows (actions ++ [.send call]) l' c' d' out := by
  have hreturned : samplesReturned (actions ++ [.send call]) = samplesReturned actions :=
    samplesReturned_snoc actions (.send call)
  have hreceived : receivedBytes 4 (actions ++ [.send call]) = receivedBytes 4 actions :=
    (receivedBytes_snoc 4 actions (.send call)).trans (List.append_nil _)
  have hsent : sentSamples (actions ++ [.send call]) = sentSamples actions ++ call.samples := by
    simp [sentSamples, Action.samples]
  rcases send_coupled h.coupled htotal hsend with
    ⟨e, hresult, rfl⟩ |
    ⟨buffer, rounds, c', hbuffers, hrounds, hresult, hl, hcoupled, hpending, -⟩
  · refine ⟨c, d, h.coupled, h.hostItem, ?_, h.returned.trans hreturned.symm,
      h.received.trans hreceived.symm⟩
    rw [hsent, h.sent, Sending.samples, Sending.sent, hresult]
    simp [Except.toOption]
  · have hsamples : call.samples =
        ((Transmit.pieces l.sender.packetSamples call.total).take rounds).flatMap fun piece =>
          pieceSamples (Transmitter.pieceMetadata call.metadata call.total piece) buffer piece := by
      rw [flatMap_pieceSamples h.coupled.packetSamples hrounds, Sending.samples, Sending.sent,
        hresult, hbuffers]
      rfl
    refine ⟨c', _, hcoupled, ?_, ?_, h.returned.trans hreturned.symm,
      h.received.trans hreceived.symm⟩
    · rw [hl]
      exact h.hostItem
    · rw [hsent, hsamples, h.sent, hpending, List.append_assoc]

theorem Follows.recv {call : Receiving} (h : Follows actions l c d out)
    (hrecv : l.recv call.buffers call.wanted call.onePacket = some (l', call.result)) :
    (∃ c' d' out', Follows (actions ++ [.recv call]) l' c' d' out') ∧
      (∀ got, call.result = .ok got → Tells actions got) ∧ call.result ≠ .error .linkClosed := by
  have hsent : sentSamples (actions ++ [.recv call]) = sentSamples actions := by
    simp [sentSamples, Action.samples]
  have hreturned : samplesReturned (actions ++ [.recv call]) =
      samplesReturned actions + call.returned := samplesReturned_snoc actions (.recv call)
  have hreceived : receivedBytes 4 (actions ++ [.recv call]) =
      receivedBytes 4 actions ++ call.bytes 4 := receivedBytes_snoc 4 actions (.recv call)
  rcases recv_coupled h.coupled hrecv with
    ⟨e, hresult, hopen, rfl⟩ | ⟨buffer, got, c', d', new, -, hresult, hcoupled, hpending, hg⟩
  · refine ⟨⟨c, d, out, h.coupled, h.hostItem, hsent.trans h.sent, ?_, ?_⟩, ?_, ?_⟩
    · rw [hreturned, Receiving.returned_of_error hresult, h.returned, Nat.add_zero]
    · rw [hreceived, Receiving.bytes_of_error 4 hresult, h.received, List.append_nil]
    · intro got hgot
      rw [hresult] at hgot
      cases hgot
    · rw [hresult]
      exact fun heq => hopen (Except.error.inj heq)
  · obtain ⟨hcount, hbytes⟩ := Receiving.bytes_of_gathered hresult hg
    rw [h.hostItem] at hbytes
    refine ⟨⟨c', d', out ++ new, hcoupled, ?_, ?_, ?_, ?_⟩, fun got' hgot' => ?_, ?_⟩
    · exact (Receiver.hostItem_of_setup hg.passes.setup).trans h.hostItem
    · rw [hsent, h.sent, hpending, List.append_assoc]
    · rw [List.length_append, hreturned, h.returned, hcount]
    · rw [List.flatMap_append, h.received, hreceived, hbytes]
    · rw [hresult] at hgot'
      cases hgot'
      refine ⟨hg.outOfSequence, hg.code, ?_⟩
      rw [hg.endOfBurst, h.sent, ← h.returned, List.drop_left, hpending, hg.samples, List.take_left]
    · rw [hresult]
      exact nofun

end

theorem Run.follows {o o' : StreamOptions} {settings settings' : Settings} {link : Link}
    {l₀ l : Loopback} {actions : List Action} (h : l₀.SetUp o o' settings settings' link)
    (hhost : o.hostFormat = "sc16") (hwire : o.wireFormat = "sc16")
    (hhost' : o'.hostFormat = "sc16") (hwire' : o'.wireFormat = "sc16")
    (hrun : Run l₀ actions l) : ∃ c d out, Follows actions l c d out := by
  induction hrun with
  | start =>
    obtain ⟨hitem, c, d, hcoupled, hnone⟩ := h.coupled hhost hwire hhost' hwire'
    exact ⟨c, d, [], hcoupled, hitem, by rw [hnone]; rfl, rfl, rfl⟩
  | step hrun hstep ih =>
    obtain ⟨c, d, out, hfollows⟩ := ih
    cases hstep with
    | send htotal hsend =>
      obtain ⟨c', d', hfollows'⟩ := hfollows.send htotal hsend
      exact ⟨c', d', out, hfollows'⟩
    | recv hrecv => exact (hfollows.recv hrecv).1

/-- What the receives returned is at every time a prefix of what the sends returned
as sent, and all of it once nothing is left in between. No receive finds a gap or a
closed link, and the end of a burst is told with its last sample. -/
theorem run_identity {o o' : StreamOptions} {settings settings' : Settings} {link : Link}
    {l₀ l : Loopback} {actions : List Action} (hsetup : l₀.SetUp o o' settings settings' link)
    (hhost : o.hostFormat = "sc16") (hwire : o.wireFormat = "sc16")
    (hhost' : o'.hostFormat = "sc16") (hwire' : o'.wireFormat = "sc16")
    (hrun : Run l₀ actions l) :
    receivedBytes 4 actions <+: sentBytes 4 actions ∧
      (l.Drained → receivedBytes 4 actions = sentBytes 4 actions) ∧
      ∀ before call after, actions = before ++ .recv call :: after →
        (∀ got, call.result = .ok got → Tells before got) ∧ call.result ≠ .error .linkClosed := by
  obtain ⟨c, d, out, h⟩ := hrun.follows hsetup hhost hwire hhost' hwire'
  have hsent : sentBytes 4 actions =
      receivedBytes 4 actions ++ (l.pending d).flatMap Token.bytes := by
    rw [← bytes_sentSamples, h.sent, List.flatMap_append, h.received]
  refine ⟨⟨_, hsent.symm⟩, fun hdrained => ?_, fun before call after hactions => ?_⟩
  · rw [hsent, h.coupled.pending_of_drained hdrained, List.flatMap_nil, List.append_nil]
  · -- what a call tells is decided where it is made, by what was sent until then
    subst hactions
    obtain ⟨l₁, l₂, hrun₁, hstep⟩ := hrun.split
    obtain ⟨c₁, d₁, out₁, h₁⟩ := hrun₁.follows hsetup hhost hwire hhost' hwire'
    cases hstep with
    | recv hrecv => exact (h₁.recv hrecv).2

/-! ## One sample at a time -/

/-- Two streams of packets with one sample, on a link that holds one frame. -/
def oneSample : Loopback where
  sender := {
    channels := [{
      link := { depth := 1 }, streamId := 0
      converter := (Converter.start (.compute (.packShorts .big .shorts))).setScalar
        (peak "sc16" / Real.ofNat 1) }]
    packing := { order := .big, wireItem := 4, tickRate := Real.ofNat 100000000 }
    hostItem := 4
    packetSamples := 1
    worker := {
      order := .big, rate := Real.ofNat 100000000, channel := 0
      queue := { capacity := 1000, capacity_pos := Settings.reportDepth_pos } } }
  receiver := Receiver.oneChannel.onLink 0 fun _ => { depth := 1 }

theorem setUp_oneSample :
    oneSample.SetUp { hostFormat := "sc16", wireFormat := "sc16" }
      { hostFormat := "sc16", wireFormat := "sc16" } { packetSamples := 1 } {} { depth := 1 } :=
  ⟨rfl, ⟨_, rfl, rfl⟩, rfl, rfl, rfl, rfl⟩

/-- What a receive returned, and whether it told the end of a burst. -/
structure Heard where
  samples : Nat
  buffers : List Bytes
  endOfBurst : Bool
deriving DecidableEq

def heard (result : Except StreamError Receiver.Received) : Option Heard :=
  result.toOption.map fun got => ⟨got.samples, got.buffers, got.metadata.endOfBurst⟩

theorem heard_oneSample :
    (do
      let (l, _) ← oneSample.send [[1, 0, 2, 0, 3, 0, 4, 0]] 2 .burstEnd
      let (l, got) ← l.recv [[9, 9, 9, 9, 9, 9, 9, 9]] 2 false
      let (l, _) ← l.send [[3, 0, 4, 0]] 1 .burstEnd
      let (_, got') ← l.recv [[9, 9, 9, 9]] 1 false
      return [heard got, heard got'] : Option (List (Option Heard))) =
    some [some ⟨1, [[1, 0, 2, 0, 9, 9, 9, 9]], false⟩, some ⟨1, [[3, 0, 4, 0]], true⟩] := by
  decide +kernel

/-- A send of two samples for which the link has room for one, and another for the
rest of the burst. -/
theorem run_identity_oneSample :
    ∃ sent got sent' got' l,
      let actions : List Action := [
        .send ⟨[[1, 0, 2, 0, 3, 0, 4, 0]], 2, .burstEnd, sent⟩,
        .recv ⟨[[9, 9, 9, 9, 9, 9, 9, 9]], 2, false, got⟩,
        .send ⟨[[3, 0, 4, 0]], 1, .burstEnd, sent'⟩,
        .recv ⟨[[9, 9, 9, 9]], 1, false, got'⟩]
      Run oneSample actions l ∧ heard got' = some ⟨1, [[3, 0, 4, 0]], true⟩ ∧
        receivedBytes 4 actions = [1, 0, 2, 0, 3, 0, 4, 0] ∧
        receivedBytes 4 actions <+: sentBytes 4 actions ∧
        (l.Drained → receivedBytes 4 actions = sentBytes 4 actions) ∧
        ∀ before call after, actions = before ++ .recv call :: after →
          (∀ got, call.result = .ok got → Tells before got) ∧ call.result ≠ .error .linkClosed := by
  have hheard := heard_oneSample
  simp only [bind, Option.bind_eq_some_iff, pure, Option.some.injEq, List.cons.injEq] at hheard
  obtain ⟨⟨l₁, sent⟩, hsend, ⟨l₂, got⟩, hrecv, ⟨l₃, sent'⟩, hsend', ⟨l₄, got'⟩, hrecv', hgot, hgot',
    -⟩ := hheard
  have hfirst : Step oneSample (.send ⟨_, 2, _, sent⟩) l₁ := .send Nat.two_pos hsend
  have hsecond : Step l₁ (.recv ⟨_, _, _, got⟩) l₂ := .recv hrecv
  have hthird : Step l₂ (.send ⟨_, 1, _, sent'⟩) l₃ := .send Nat.one_pos hsend'
  have hfourth : Step l₃ (.recv ⟨_, _, _, got'⟩) l₄ := .recv hrecv'
  refine ⟨sent, got, sent', got', l₄, ?_⟩
  intro actions
  have hrun : Run oneSample actions l₄ :=
    (((Run.start.step hfirst).step hsecond).step hthird).step hfourth
  refine ⟨hrun, hgot', ?_, run_identity setUp_oneSample rfl rfl rfl rfl hrun⟩
  simp only [heard, Option.map_eq_some_iff, Heard.mk.injEq] at hgot hgot'
  obtain ⟨received, hreceived, hsamples, hbuffers, -⟩ := hgot
  obtain ⟨received', hreceived', hsamples', hbuffers', -⟩ := hgot'
  simp [actions, receivedBytes, Action.receivedBytes, Receiving.bytes, Receiving.returned,
    hreceived, hsamples, hbuffers, hreceived', hsamples', hbuffers']

end SampleStream.Loopback
