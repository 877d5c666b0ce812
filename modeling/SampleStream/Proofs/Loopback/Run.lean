import SampleStream.Proofs.Receive.Queue
import SampleStream.Proofs.Receive.Run
import SampleStream.Proofs.Transmit.OneLink

/-!
# A transmit stream and a receive stream on one link

The two streams share their links: what a send puts on them is there for the next
receive, and what a receive takes off makes room for the next send. With one channel
the link and the packet held are a queue of samples between the two
(`Coupled`). A send that returns puts the samples of its pieces at the end
(`send_coupled`), and a receive takes from the front (`recv_coupled`).
-/

namespace SampleStream

/-! ## Both ends -/

/-- The stream with its links replaced. -/
def Transmitter.withLinks (t : Transmitter) (links : List Link) : Transmitter :=
  { t with channels := List.zipWith (fun c link => { c with link }) t.channels links }

/-- The stream with its links replaced. -/
def Receiver.withLinks (r : Receiver) (links : List Link) : Receiver :=
  { r with channels := List.zipWith (fun c link => { c with link }) r.channels links }

/-- A transmit stream and a receive stream on the two ends of the same links. -/
structure Loopback where
  sender : Transmitter
  receiver : Receiver

namespace Loopback
open Receive

/-- Sends, which changes the links for the receiver too. -/
def send (l : Loopback) (buffers : List Bytes) (total : Nat) (m : Transmit.Metadata) :
    Checked (Loopback × Except StreamError Nat) := do
  let (sender, result) ← l.sender.send buffers total m
  let receiver := l.receiver.withLinks (sender.channels.map (·.link))
  return (⟨sender, receiver⟩, result)

/-- Receives, which changes the links for the sender too. -/
def recv (l : Loopback) (buffers : List Bytes) (wanted : Nat) (onePacket : Bool) :
    Checked (Loopback × Except StreamError Receiver.Received) := do
  let (receiver, result) ← l.receiver.recv buffers wanted onePacket
  let sender := l.sender.withLinks (receiver.channels.map (·.link))
  return (⟨sender, receiver⟩, result)

/-- A receive is one of the receiver, and the sender has its links. -/
theorem recv_eq_some {l l' : Loopback} {buffers : List Bytes} {wanted : Nat} {onePacket : Bool}
    {result : Except StreamError Receiver.Received}
    (h : l.recv buffers wanted onePacket = some (l', result)) :
    l.receiver.recv buffers wanted onePacket = some (l'.receiver, result) ∧
      l'.sender = l.sender.withLinks (l'.receiver.channels.map (·.link)) := by
  simp only [recv, bind, Option.bind_eq_some_iff] at h
  obtain ⟨answer, hanswer, heq⟩ := h
  cases heq
  exact ⟨hanswer, rfl⟩

/-- Two streams just set up on the two ends of a link on which nothing is in flight,
with the same byte order. -/
structure SetUp (o o' : StreamOptions) (settings settings' : Settings) (link : Link)
    (l : Loopback) : Prop where
  sender : Transmitter.create o settings [link] = some (.ok l.sender)
  receiver : Receiver.Built o' settings' [link] l.receiver
  order : l.sender.packing.order = l.receiver.order
  frames : link.frames = []
  senderOpen : link.senderOpen = true
  receiverOpen : link.receiverOpen = true

/-! ## Runs -/

/-- A send call and its answer. -/
structure Sending where
  buffers : List Bytes
  total : Nat
  metadata : Transmit.Metadata
  result : Except StreamError Nat

/-- A receive call and its answer. -/
structure Receiving where
  buffers : List Bytes
  wanted : Nat
  onePacket : Bool
  result : Except StreamError Receiver.Received

/-- A call on either end. -/
inductive Action where
  | send (call : Sending)
  | recv (call : Receiving)

namespace Sending

/-- The samples that a send returned as sent. -/
def sent (call : Sending) : Nat := call.result.toOption.getD 0

/-- The bytes of these samples. -/
def bytes (hostItem : Nat) (call : Sending) : Bytes :=
  (call.buffers[0]?.getD []).take (call.sent * hostItem)

end Sending

namespace Receiving

/-- The samples that a receive returned. -/
def returned (call : Receiving) : Nat := (call.result.toOption.map (·.samples)).getD 0

/-- The bytes of these samples. -/
def bytes (hostItem : Nat) (call : Receiving) : Bytes :=
  ((call.result.toOption.bind (·.buffers[0]?)).getD []).take (call.returned * hostItem)

variable {call : Receiving}

theorem returned_of_ok {got : Receiver.Received} (h : call.result = .ok got) :
    call.returned = got.samples := by
  rw [returned, h]
  rfl

theorem returned_of_error {e : StreamError} (h : call.result = .error e) : call.returned = 0 := by
  rw [returned, h]
  rfl

theorem bytes_of_error {e : StreamError} (hostItem : Nat) (h : call.result = .error e) :
    call.bytes hostItem = [] := by
  rw [bytes, h]
  exact List.take_nil

end Receiving

namespace Action

def sentBytes (hostItem : Nat) : Action → Bytes
  | send call => call.bytes hostItem
  | recv _ => []

def receivedBytes (hostItem : Nat) : Action → Bytes
  | send _ => []
  | recv call => call.bytes hostItem

def returned : Action → Nat
  | send _ => 0
  | recv call => call.returned

end Action

/-- The bytes of the samples that the sends returned as sent. -/
def sentBytes (hostItem : Nat) (actions : List Action) : Bytes :=
  actions.flatMap (Action.sentBytes hostItem)

/-- The bytes of the samples that the receives returned. -/
def receivedBytes (hostItem : Nat) (actions : List Action) : Bytes :=
  actions.flatMap (Action.receivedBytes hostItem)

/-- How many samples the receives returned. -/
def samplesReturned (actions : List Action) : Nat := (actions.map Action.returned).sum

theorem samplesReturned_snoc (actions : List Action) (a : Action) :
    samplesReturned (actions ++ [a]) = samplesReturned actions + a.returned := by
  simp [samplesReturned]

theorem receivedBytes_snoc (hostItem : Nat) (actions : List Action) (a : Action) :
    receivedBytes hostItem (actions ++ [a]) =
      receivedBytes hostItem actions ++ a.receivedBytes hostItem := by
  simp [receivedBytes]

/-- One call. A send has samples to send. -/
inductive Step : Loopback → Action → Loopback → Prop where
  | send {l l' : Loopback} {call : Sending} (htotal : 0 < call.total)
    (h : l.send call.buffers call.total call.metadata = some (l', call.result)) :
    Step l (.send call) l'
  | recv {l l' : Loopback} {call : Receiving}
    (h : l.recv call.buffers call.wanted call.onePacket = some (l', call.result)) :
    Step l (.recv call) l'

/-- Any calls, one after the other. -/
inductive Run (l₀ : Loopback) : List Action → Loopback → Prop where
  | start : Run l₀ [] l₀
  | step {actions : List Action} {l l' : Loopback} {a : Action} (h : Run l₀ actions l)
    (hstep : Step l a l') : Run l₀ (actions ++ [a]) l'

/-- A run stands at every call where a shorter run has led. -/
theorem Run.split {l₀ l : Loopback} {before after : List Action} {a : Action}
    (h : Run l₀ (before ++ a :: after) l) :
    ∃ l₁ l₂, Run l₀ before l₁ ∧ Step l₁ a l₂ := by
  generalize hactions : before ++ a :: after = actions at h
  induction h generalizing after with
  | start => simp at hactions
  | @step actions l l' last h hstep ih =>
    rcases List.eq_nil_or_concat after with rfl | ⟨after, other, rfl⟩
    · obtain ⟨rfl, heq⟩ := List.append_inj' hactions rfl
      cases heq
      exact ⟨l, l', h, hstep⟩
    · rw [List.concat_eq_append, ← List.cons_append, ← List.append_assoc] at hactions
      exact ih (List.append_inj' hactions rfl).1

/-- Nothing is in flight to the receiver, and it holds nothing. -/
def Drained (l : Loopback) : Prop :=
  ∀ d ∈ l.receiver.channels, d.link.frames = [] ∧ d.held = none

/-! ## One channel -/

/-- What the far end reads of the packet of a piece are these samples, and some if
the piece has some. -/
def ReadsBack (p : Transmit.Packing) (converter converter' : Sample.Converter) (wireItem : Nat)
    (tokens : Transmit.Metadata → Bytes → Transmit.Piece → List Token) : Prop :=
  ∀ {c : Transmit.Channel} {m : Transmit.Metadata} {buffer frame payload : Bytes}
    {piece : Transmit.Piece} {h : Header}, c.converter = converter →
    p.Holds c m buffer piece frame h payload → 0 < piece.samples →
    (Content.samples h payload).tokens converter' wireItem = tokens m buffer piece ∧
      0 < payload.length / wireItem

/-- Both streams have the one channel, with the same link, on which packets are in
sequence up to the next one to be sent. -/
structure Coupled (tokens : Transmit.Metadata → Bytes → Transmit.Piece → List Token)
    (l : Loopback) (c : Transmit.Channel) (d : Receive.Channel) : Prop where
  sender : l.sender.channels = [c]
  inOrder : l.receiver.InOrder d c.count
  link : d.link = c.link
  receiverOpen : c.link.receiverOpen = true
  order : l.sender.packing.order = l.receiver.order
  packetSamples : 0 < l.sender.packetSamples
  count : c.count.toNat < 16
  readsBack : ReadsBack l.sender.packing c.converter d.converter l.receiver.wireItem tokens

section
variable {tokens : Transmit.Metadata → Bytes → Transmit.Piece → List Token}

/-- The samples still to come. -/
def pending (l : Loopback) (d : Receive.Channel) : List Token :=
  d.queue l.receiver.order l.receiver.wireItem

theorem nextCount_lt (count : UInt8) : (Channel.nextCount count).toNat < 16 := by
  rw [Channel.toNat_nextCount]
  exact Nat.mod_lt _ (Nat.succ_pos _)

/-- The streams with their channels replaced. -/
def withChannels (l : Loopback) (c : Transmit.Channel) (d : Receive.Channel) : Loopback :=
  ⟨{ l.sender with channels := [c] }, { l.receiver with channels := [d] }⟩

variable {l l' : Loopback} {c c' : Transmit.Channel} {d : Receive.Channel}
  {m : Transmit.Metadata} {buffer : Bytes}

theorem Coupled.withChannels_self (h : l.Coupled tokens c d) : l.withChannels c d = l := by
  rw [withChannels, ← h.sender, ← h.inOrder.channels]

/-- Streams that were just set up are coupled by what the far end reads back, and
nothing is between them. -/
theorem SetUp.coupled_of {o o' : StreamOptions} {settings settings' : Settings} {link : Link}
    (h : l.SetUp o o' settings settings' link) (hsize : 0 < l.sender.packetSamples)
    (hchannels : l.sender.channels = [c]) (hlink : c.link = link) (hcount : c.count = 0)
    (hchannels' : l.receiver.channels = [d]) (hlink' : d.link = link)
    (hreadsBack : ReadsBack l.sender.packing c.converter d.converter l.receiver.wireItem tokens) :
    l.Coupled tokens c d ∧ l.pending d = [] := by
  have hframes : d.link.frames = [] := by rw [hlink', h.frames]
  obtain ⟨hlast, hvacant, hreads⟩ := h.receiver.fresh d (by
    rw [hchannels']
    exact List.mem_singleton_self d)
  have hin : l.receiver.InOrder d c.count := by
    refine ⟨hchannels', h.receiver.pending, hlink' ▸ h.senderOpen, fun p hp => ?_, ?_, hreads⟩
    · rw [hvacant] at hp
      cases hp
    · rw [hframes, hlast]
      exact .nil rfl
  refine ⟨⟨hchannels, hin, hlink'.trans hlink.symm, hlink ▸ h.receiverOpen, h.order, hsize, ?_,
    hreadsBack⟩, ?_⟩
  · rw [hcount]
    decide
  · rw [pending, Channel.queue_of_vacant hvacant, hframes]
    rfl

theorem Coupled.drained (h : l.Coupled tokens c d) (hdrained : l.Drained) :
    d.link.frames = [] ∧ d.held = none := by
  apply hdrained
  rw [h.inOrder.channels]
  exact List.mem_singleton_self d

theorem Coupled.pending_of_drained (h : l.Coupled tokens c d) (hdrained : l.Drained) :
    l.pending d = [] := by
  obtain ⟨hframes, hheld⟩ := h.drained hdrained
  rw [pending, Channel.queue_of_vacant hheld, hframes]
  rfl

/-- One packet more on the link. -/
theorem Coupled.put (h : l.Coupled tokens c d) {frame : Bytes} {piece : Transmit.Piece}
    (hsamples : 0 < piece.samples)
    (hframe : l.sender.packing.frame c m buffer piece = some (.ok frame)) :
    (l.withChannels (c.put frame) { d with link := (c.put frame).link }).Coupled tokens
        (c.put frame) { d with link := (c.put frame).link } ∧
      (l.withChannels (c.put frame) { d with link := (c.put frame).link }).pending
          { d with link := (c.put frame).link } = l.pending d ++ tokens m buffer piece := by
  obtain ⟨-, -, header, payload, hholds⟩ := Transmit.Packing.frame_holds hframe
  obtain ⟨htokens, hsome⟩ := h.readsBack rfl hholds hsamples
  have hcontent := hholds.content
  rw [h.order] at hcontent
  have hcount : header.count = c.count := by
    rw [hholds.count, Nat.mod_eq_of_lt h.count, UInt8.ofNat_toNat]
  have hin := h.inOrder
  constructor
  · refine ⟨rfl, ⟨rfl, hin.pending, ?_, hin.held, ?_, hin.reads⟩, rfl, h.receiverOpen, h.order,
      h.packetSamples, nextCount_lt c.count, h.readsBack⟩
    · have hopen := hin.senderOpen
      rw [h.link] at hopen
      exact hopen
    · -- the packet has the count that the link waits for
      have hframes := hin.frames
      rw [h.link, ← hcount] at hframes
      have hsnoc := hframes.snoc hcontent hsome
      rw [hcount] at hsnoc
      exact hsnoc
  · rw [pending, pending, Channel.queue, Channel.queue, List.append_assoc]
    congr 1
    simp only [tokensOf, withChannels, Transmit.Channel.put, Link.carry, List.flatMap_append,
      List.flatMap_cons, List.flatMap_nil, List.append_nil, h.link, hcontent, htokens]

/-- The packets of pieces, one after the other. -/
theorem Coupled.accepted {total : Nat} {ps : List Transmit.Piece} (h : l.Coupled tokens c d)
    (hsamples : ∀ piece ∈ ps, 0 < piece.samples)
    (haccepted : Transmitter.Accepted l.sender.packing m total buffer c ps c') :
    (l.withChannels c' { d with link := c'.link }).Coupled tokens c' { d with link := c'.link } ∧
      (l.withChannels c' { d with link := c'.link }).pending { d with link := c'.link } =
        l.pending d ++ ps.flatMap fun piece =>
          tokens (Transmitter.pieceMetadata m total piece) buffer piece := by
  generalize hpacking : l.sender.packing = p at haccepted
  induction haccepted generalizing l d with
  | nil c =>
    have hself : { d with link := c.link } = d := by rw [← h.link]
    rw [hself, h.withChannels_self]
    exact ⟨h, by simp⟩
  | cons hframe _ ih =>
    subst hpacking
    obtain ⟨hput, hpending⟩ := h.put (hsamples _ (List.mem_cons_self ..)) hframe
    have hothers := fun piece hpiece => hsamples piece (List.mem_cons_of_mem _ hpiece)
    obtain ⟨hrest, hall⟩ := ih hput hothers rfl
    refine ⟨hrest, ?_⟩
    rw [List.flatMap_cons, ← List.append_assoc, ← hpending]
    exact hall

/-- A send fails and nothing has changed, or the link took the pieces that are counted
and their samples come to the end of the queue. -/
theorem send_coupled {buffers : List Bytes} {total : Nat} {result : Except StreamError Nat}
    (h : l.Coupled tokens c d) (htotal : 0 < total)
    (hsend : l.send buffers total m = some (l', result)) :
    (∃ e, result = .error e ∧ l' = l) ∨
      ∃ buffer rounds c', buffers = [buffer] ∧
        rounds ≤ (Transmit.pieces l.sender.packetSamples total).length ∧
        result = .ok (min total (rounds * l.sender.packetSamples)) ∧
        l' = l.withChannels c' { d with link := c'.link } ∧
        l'.Coupled tokens c' { d with link := c'.link } ∧
        l'.pending { d with link := c'.link } = l.pending d ++
          (((Transmit.pieces l.sender.packetSamples total).take rounds).flatMap fun piece =>
            tokens (Transmitter.pieceMetadata m total piece) buffer piece) ∧
        Transmitter.Accepted l.sender.packing m total buffer c
          ((Transmit.pieces l.sender.packetSamples total).take rounds) c' := by
  simp only [send, bind, Option.bind_eq_some_iff] at hsend
  obtain ⟨⟨t, result'⟩, hsend, heq⟩ := hsend
  cases heq
  rcases Transmitter.send_one h.sender h.receiverOpen h.packetSamples htotal hsend with
    ⟨e, rfl, rfl⟩ | ⟨buffer, rounds, c', rfl, hle, rfl, rfl, haccepted⟩
  · -- the link that is put back is the one that was there
    refine .inl ⟨e, rfl, ?_⟩
    have hself : { d with link := c.link } = d := by rw [← h.link]
    rw [Receiver.withLinks, h.sender, h.inOrder.channels]
    simp only [List.map_cons, List.map_nil, List.zipWith_cons_cons, List.zipWith_nil_right, hself]
    rw [← h.inOrder.channels]
  · have hsamples : ∀ piece ∈ (Transmit.pieces l.sender.packetSamples total).take rounds,
        0 < piece.samples := by
      intro piece hpiece
      exact Transmit.samples_pos_of_mem_pieces h.packetSamples (List.mem_of_mem_take hpiece)
    obtain ⟨hcoupled, hpending⟩ := h.accepted hsamples haccepted
    have hreceiver : l.receiver.withLinks [c'.link] =
        { l.receiver with channels := [{ d with link := c'.link }] } := by
      rw [Receiver.withLinks, h.inOrder.channels]
      rfl
    refine .inr ⟨buffer, rounds, c', rfl, hle, rfl, ?_⟩
    have hl : (⟨{ l.sender with channels := [c'] }, l.receiver.withLinks [c'.link]⟩ : Loopback) =
        l.withChannels c' { d with link := c'.link } := by
      rw [hreceiver, withChannels]
    exact ⟨hl, hl ▸ hcoupled, hl ▸ hpending, haccepted⟩

/-- A receive takes from the front of the queue, or it fails for its buffers and
nothing has changed. -/
theorem recv_coupled {buffers : List Bytes} {wanted : Nat} {onePacket : Bool}
    {result : Except StreamError Receiver.Received} (h : l.Coupled tokens c d)
    (hrecv : l.recv buffers wanted onePacket = some (l', result)) :
    (∃ e, result = .error e ∧ e ≠ .linkClosed ∧ l' = l) ∨
      ∃ buffer got c' d' out, buffers = [buffer] ∧ result = .ok got ∧ l'.Coupled tokens c' d' ∧
        l.pending d = out ++ l'.pending d' ∧
        Receiver.Gathered l.receiver d buffer out l'.receiver d' got c.count := by
  simp only [recv, bind, Option.bind_eq_some_iff] at hrecv
  obtain ⟨⟨r, result'⟩, hrecv, heq⟩ := hrecv
  cases heq
  rcases Receiver.recv_inOrder h.inOrder hrecv with
    ⟨e, rfl, hopen, rfl⟩ | ⟨buffer, got, d', out, rfl, rfl, hg⟩
  · refine .inl ⟨e, rfl, hopen, ?_⟩
    have hself : { c with link := d.link } = c := by rw [h.link]
    rw [Transmitter.withLinks, h.sender, h.inOrder.channels]
    simp only [List.map_cons, List.map_nil, List.zipWith_cons_cons, List.zipWith_nil_right, hself]
    rw [← h.sender]
  · have hpasses := hg.passes
    have horder := Receiver.order_of_setup hpasses.setup
    have hwire := Receiver.wireItem_of_setup hpasses.setup
    have hsender : l.sender.withLinks (r.channels.map (·.link)) =
        { l.sender with channels := [{ c with link := d'.link }] } := by
      rw [Transmitter.withLinks, h.sender, hpasses.inOrder.channels]
      rfl
    have hopen : d'.link.receiverOpen = true := by
      rw [hpasses.link, h.link]
      exact h.receiverOpen
    refine .inr ⟨buffer, got, { c with link := d'.link }, d', out, rfl, rfl, ?_, ?_, hg⟩
    · rw [hsender]
      refine ⟨rfl, hpasses.inOrder, rfl, hopen, h.order.trans horder.symm, h.packetSamples,
        h.count, ?_⟩
      rw [hpasses.converter, hwire]
      exact h.readsBack
    · rw [pending, pending, horder, hwire]
      exact hpasses.queue

/-- What a receive returned that took `new` from the queue. -/
theorem Receiving.bytes_of_gathered {call : Receiving} {r r' : Receiver} {d d' : Receive.Channel}
    {buffer : Bytes} {new : List Token} {got : Receiver.Received} {next : UInt8}
    (hresult : call.result = .ok got) (hg : Receiver.Gathered r d buffer new r' d' got next) :
    call.returned = new.length ∧ call.bytes r.hostItem = new.flatMap Token.bytes := by
  have hreturned := Receiving.returned_of_ok hresult
  refine ⟨hreturned.trans hg.samples, ?_⟩
  have hbuffers := hg.buffers
  simp only [Receiving.bytes, hreturned, hresult, Except.toOption, Option.bind_some, hbuffers,
    List.getElem?_cons_zero, Option.getD_some]
  exact List.take_left' hg.length_bytes

end

end Loopback
end SampleStream
