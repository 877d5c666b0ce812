import SampleStream.Proofs.Transmit.Framing
import SampleStream.Proofs.Transmit.Offers

/-!
# The packets of a transmit stream

A call only adds to the links (`frames_append_taken`). The packets that the link of a
channel takes are numbered from zero on in the order in which it takes them, modulo
sixteen, whatever calls they are of and whatever these answer: a frame that is refused
uses no number (`Run.counted`). A call that sends everything gives each link the packets of
all its samples, full ones up to the last, with the flags and the time where they belong
(`PacketOf`), and each packet has what the converter makes of its own samples
(`run_packets`).
-/

namespace SampleStream.Transmit

/-! ## Numbered packets -/

/-- A frame is read as a packet of samples of a stream, and its count is that of the
packet `number`. -/
def IsPacket (order : ByteOrder) (streamId : UInt32) (number : Nat) (frame : Bytes) : Prop :=
  ∃ h e, Header.unpack order frame = .ok (h, e) ∧ h.packetClass = .data ∧
    h.streamId = some streamId ∧ h.count.toNat = number % 16

theorem IsPacket.of_mod_eq {order : ByteOrder} {streamId : UInt32} {number number' : Nat}
    {frame : Bytes} (h : IsPacket order streamId number frame)
    (hmod : number % 16 = number' % 16) : IsPacket order streamId number' frame := by
  obtain ⟨header, e, hunpack, hclass, hstream, hcount⟩ := h
  exact ⟨header, e, hunpack, hclass, hstream, hcount.trans hmod⟩

theorem Packing.isPacket {p : Packing} {c : Channel} {m : Metadata} {buffer frame : Bytes}
    {piece : Piece} (h : p.frame c m buffer piece = some (.ok frame)) :
    IsPacket p.order c.streamId c.count.toNat frame := by
  obtain ⟨-, -, header, e, payload, hunpacks⟩ := frame_unpacks h
  refine ⟨header, e, hunpacks.unpacked, hunpacks.packetClass, hunpacks.streamId, ?_⟩
  rw [hunpacks.count, UInt8.toNat_ofNat']
  omega

namespace Channel

theorem count_put (c : Channel) (frame : Bytes) :
    (c.put frame).count.toNat = (c.count.toNat + 1) % 16 := by
  have hmask : (c.count.toNat + 1) % 256 &&& 15 = (c.count.toNat + 1) % 256 % 16 :=
    Nat.and_two_pow_sub_one_eq_mod _ 4
  rw [put, UInt8.toNat_and, UInt8.toNat_add]
  exact hmask.trans (Nat.mod_mod_of_dvd _ (by decide))

/-- The channel after its link took these frames: they are packets numbered from the count
of the channel on, and its count has gone on by as many. -/
structure Counted (order : ByteOrder) (c : Channel) (frames : List Bytes) (c' : Channel) :
    Prop where
  streamId : c'.streamId = c.streamId
  converter : c'.converter = c.converter
  count : c'.count.toNat % 16 = (c.count.toNat + frames.length) % 16
  numbered : ∀ (j : Nat) (frame : Bytes), frames[j]? = some frame →
    IsPacket order c.streamId (c.count.toNat + j) frame

variable {order : ByteOrder} {c c' c'' : Channel} {frames frames' : List Bytes}

theorem Counted.refl (order : ByteOrder) (c : Channel) : Counted order c [] c :=
  ⟨rfl, rfl, rfl, nofun⟩

theorem Counted.trans (h : Counted order c frames c') (h' : Counted order c' frames' c'') :
    Counted order c (frames ++ frames') c'' where
  streamId := h'.streamId.trans h.streamId
  converter := h'.converter.trans h.converter
  count := by
    have hbefore := h.count
    have hafter := h'.count
    rw [List.length_append]
    omega
  numbered j frame hframe := by
    rcases Nat.lt_or_ge j frames.length with hlt | hge
    · rw [List.getElem?_append_left hlt] at hframe
      exact h.numbered j frame hframe
    · rw [List.getElem?_append_right hge] at hframe
      have hcount := h.count
      have hlater := h'.numbered _ frame hframe
      rw [h.streamId] at hlater
      exact hlater.of_mod_eq (by omega)

theorem counted_put {p : Packing} {m : Metadata} {buffer frame : Bytes} {piece : Piece}
    (h : p.frame c m buffer piece = some (.ok frame)) :
    Counted p.order c [frame] (c.put frame) where
  streamId := rfl
  converter := rfl
  count := by rw [count_put, Nat.mod_mod, List.length_singleton]
  numbered j frame' hframe := by
    cases j with
    | zero =>
      cases hframe
      exact Packing.isPacket h
    | succ j => cases hframe

end Channel
end SampleStream.Transmit

namespace SampleStream.Transmitter
open Transmit

/-! ## Runs of calls -/

/-- The frames in flight on the link of a channel. -/
def frames (t : Transmitter) (index : Nat) : List Bytes :=
  (t.channels[index]?.map fun c => c.link.frames).getD []

/-- The frames that the link of a channel took in a call. -/
def taken (t t' : Transmitter) (index : Nat) : List Bytes :=
  (t'.frames index).drop (t.frames index).length

/-- What can become of a stream, and the frames that the link of each channel took on the
way: calls with any answer, and between them links that change in any way, other tick rates
and reports. -/
inductive Run (made : Transmitter) : (Nat → List Bytes) → Transmitter → Prop where
  | start : Run made (fun _ => []) made
  | send {log : Nat → List Bytes} {t t' : Transmitter} {buffers : List Bytes} {total : Nat}
    {m : Metadata} {result : Except StreamError Nat} (h : Run made log t)
    (hsend : t.send buffers total m = some (t', result)) :
    Run made (fun index => log index ++ taken t t' index) t'
  | link {log : Nat → List Bytes} {t : Transmitter} (h : Run made log t) (index : Nat)
    (f : Link → Link) : Run made log (t.onLink index f)
  | tickRate {log : Nat → List Bytes} {t : Transmitter} (h : Run made log t) (rate : Float) :
    Run made log (t.setTickRate rate)
  | reports {log : Nat → List Bytes} {t : Transmitter} (h : Run made log t)
    (worker : ReportWorker) : Run made log { t with worker }

/-- The stream after the links of its channels took these frames. -/
structure Counted (made : Transmitter) (log : Nat → List Bytes) (t : Transmitter) : Prop where
  order : t.packing.order = made.packing.order
  wireItem : t.packing.wireItem = made.packing.wireItem
  packetSamples : t.packetSamples = made.packetSamples
  length : t.channels.length = made.channels.length
  channel : ∀ {index : Nat} {c c' : Channel}, made.channels[index]? = some c →
    t.channels[index]? = some c' → Channel.Counted made.packing.order c (log index) c'

section
variable {made t t' : Transmitter} {log : Nat → List Bytes}

theorem frames_of_getElem? {index : Nat} {c : Channel} (hc : t.channels[index]? = some c) :
    t.frames index = c.link.frames := by
  rw [frames, hc]
  rfl

theorem taken_of_append {index : Nat} {c c' : Channel} {new : List Bytes}
    (hc : t.channels[index]? = some c) (hc' : t'.channels[index]? = some c')
    (hnew : c'.link.frames = c.link.frames ++ new) : taken t t' index = new := by
  rw [taken, frames_of_getElem? hc, frames_of_getElem? hc', hnew, List.drop_left]

/-- A call only adds to the links, and what it adds is numbered on, whatever it answers. -/
theorem counted_taken {buffers : List Bytes} {total : Nat} {m : Metadata}
    {result : Except StreamError Nat} (h : t.send buffers total m = some (t', result)) :
    t' = { t with channels := t'.channels } ∧ t'.channels.length = t.channels.length ∧
      ∀ (index : Nat) (c c' : Channel), t.channels[index]? = some c →
        t'.channels[index]? = some c' →
        c'.link.frames = c.link.frames ++ taken t t' index ∧
          Channel.Counted t.packing.order c (taken t t' index) c' := by
  have hboth := send_forall₂
    (R := fun c c' => ∃ new, c'.link.frames = c.link.frames ++ new ∧
      Channel.Counted t.packing.order c new c')
    (fun c => ⟨[], (List.append_nil _).symm, .refl _ c⟩)
    (fun c c' c'' => ?_) (fun _ hframe => ⟨[_], rfl, Channel.counted_put hframe⟩) h
  · obtain ⟨hsame, hchannels⟩ := hboth
    refine ⟨hsame, hchannels.length_eq.symm, fun index c c' hc hc' => ?_⟩
    obtain ⟨hlt, hget⟩ := List.getElem?_eq_some_iff.mp hc
    obtain ⟨hlt', hget'⟩ := List.getElem?_eq_some_iff.mp hc'
    obtain ⟨new, hnew, hcounted⟩ := (List.forall₂_iff_get.mp hchannels).2 index hlt hlt'
    rw [List.get_eq_getElem, List.get_eq_getElem, hget, hget'] at hnew hcounted
    rw [taken_of_append hc hc' hnew]
    exact ⟨hnew, hcounted⟩
  · rintro ⟨new, hnew, hcounted⟩ ⟨new', hnew', hcounted'⟩
    exact ⟨new ++ new', by rw [hnew', hnew, List.append_assoc], hcounted.trans hcounted'⟩

/-- What is in flight stays there, and what a call adds follows it. -/
theorem frames_append_taken {buffers : List Bytes} {total : Nat} {m : Metadata}
    {result : Except StreamError Nat} (h : t.send buffers total m = some (t', result))
    (index : Nat) : t'.frames index = t.frames index ++ taken t t' index := by
  obtain ⟨-, hlength, htaken⟩ := counted_taken h
  by_cases hlt : index < t.channels.length
  · have hc := List.getElem?_eq_getElem hlt
    have hc' := List.getElem?_eq_getElem (hlength ▸ hlt)
    rw [frames_of_getElem? hc, frames_of_getElem? hc']
    exact (htaken index _ _ hc hc').1
  · have hnone := List.getElem?_eq_none (Nat.le_of_not_lt hlt)
    have hnone' := List.getElem?_eq_none (hlength ▸ Nat.le_of_not_lt hlt)
    simp [taken, frames, hnone, hnone']

theorem Counted.send {buffers : List Bytes} {total : Nat} {m : Metadata}
    {result : Except StreamError Nat} (h : Counted made log t)
    (hsend : t.send buffers total m = some (t', result)) :
    Counted made (fun index => log index ++ taken t t' index) t' := by
  obtain ⟨hsame, hlength, htaken⟩ := counted_taken hsend
  have hpacking : t'.packing = t.packing := by rw [hsame]
  have hsamples : t'.packetSamples = t.packetSamples := by rw [hsame]
  refine ⟨hpacking ▸ h.order, hpacking ▸ h.wireItem, hsamples.trans h.packetSamples,
    hlength.trans h.length, fun {index c c'} hc hc' => ?_⟩
  obtain ⟨hlt, -⟩ := List.getElem?_eq_some_iff.mp hc'
  have hbetween := List.getElem?_eq_getElem (hlength ▸ hlt)
  exact (h.channel hc hbetween).trans (h.order ▸ (htaken index _ c' hbetween hc').2)

theorem Counted.link (h : Counted made log t) (index : Nat) (f : Link → Link) :
    Counted made log (t.onLink index f) where
  order := h.order
  wireItem := h.wireItem
  packetSamples := h.packetSamples
  length := (List.length_modify ..).trans h.length
  channel {index' c c'} hc hc' := by
    rw [onLink, List.getElem?_modify, Option.map_eq_map, Option.map_eq_some_iff] at hc'
    obtain ⟨c₁, hc₁, rfl⟩ := hc'
    have hcounted := h.channel hc hc₁
    split
    · exact ⟨hcounted.streamId, hcounted.converter, hcounted.count, hcounted.numbered⟩
    · exact hcounted

/-- The packets that a link took since the stream was set up are numbered from zero on. -/
theorem Run.counted (h : Run made log t) : Counted made log t := by
  induction h with
  | start =>
    refine ⟨rfl, rfl, rfl, rfl, fun hc hc' => ?_⟩
    cases hc.symm.trans hc'
    exact .refl _ _
  | send _ hsend ih => exact ih.send hsend
  | link _ index f ih => exact ih.link index f
  | tickRate _ rate ih => exact ⟨ih.order, ih.wireItem, ih.packetSamples, ih.length, ih.channel⟩
  | reports _ worker ih => exact ⟨ih.order, ih.wireItem, ih.packetSamples, ih.length, ih.channel⟩

end

/-! ## The packets of a call -/

namespace Plan

/-- The converter of each channel. -/
def converter (p : Plan) : Sample.Converter :=
  (Sample.Converter.start p.conversion.method).setScalar p.scalar

/-- How the packets are made at a tick rate. -/
def packing (p : Plan) (rate : Float) : Packing :=
  { order := p.conversion.order, wireItem := p.conversion.wireItem, tickRate := rate }

/-- The packets that so many samples take. -/
def packets (p : Plan) (total : Nat) : Nat := (total + p.packetSamples - 1) / p.packetSamples

end Plan

/-- What is read of the packet `i` of a call: its samples follow those of the packets
before it, only the first packet has the start of the burst and the time, and only the
last one has the end of the burst and may be short. -/
structure PacketOf (p : Plan) (rate : Float) (m : Metadata) (buffer : Bytes) (total i : Nat)
    (frame : Bytes) (samples : Nat) (h : Header) (e : Extent) (payload : Bytes) : Prop where
  pos : 0 < samples
  le : samples ≤ p.packetSamples
  full : i + 1 < p.packets total → samples = p.packetSamples
  last : i + 1 = p.packets total → i * p.packetSamples + samples = total
  unpacked : Header.unpack p.conversion.order frame = .ok (h, e)
  startOfBurst : h.startOfBurst = true ↔ m.startOfBurst = true ∧ i = 0
  endOfBurst : h.endOfBurst = true ↔ m.endOfBurst = true ∧ i + 1 = p.packets total
  timed : h.fractionalTime.isSome = true ↔ m.time.isSome = true ∧ i = 0
  time : i = 0 → (p.packing rate).timeField m.time = some h.fractionalTime
  words : e.payload = (samples * p.conversion.wireItem + 3) / 4
  read : e.payloadOf frame = some payload
  encoded : p.converter.convert ⟨buffer, i * p.packetSamples⟩
    ⟨List.replicate (4 * ((samples * p.conversion.wireItem + 3) / 4)) 0, 0⟩ samples = some payload

/-- The frames that a link takes in a call are those of all samples of the buffer. -/
structure PacketsOf (p : Plan) (rate : Float) (m : Metadata) (buffer : Bytes) (total : Nat)
    (frames : List Bytes) : Prop where
  length : frames.length = p.packets total
  packet : ∀ (i : Nat) (frame : Bytes), frames[i]? = some frame →
    ∃ samples h e payload, PacketOf p rate m buffer total i frame samples h e payload

section
variable {p : Plan} {rate : Float} {m : Metadata} {buffer frame : Bytes} {total i : Nat}

theorem isSome_of_timeField {packing : Packing} {time : Option Time} {ticks : Option UInt64}
    (h : packing.timeField time = some ticks) : ticks.isSome = time.isSome := by
  cases time with
  | none =>
    cases h
    rfl
  | some time =>
    simp only [Packing.timeField, Option.mapM_some, Option.map_eq_map, Option.map_map,
      Option.map_eq_some_iff] at h
    obtain ⟨n, -, rfl⟩ := h
    rfl

theorem packetOf {c : Channel} {piece : Piece} (hsize : 0 < p.packetSamples)
    (hconverter : c.converter = p.converter)
    (hpiece : (pieces p.packetSamples total)[i]? = some piece)
    (hframe : (p.packing rate).frame c (pieceMetadata m total piece) buffer piece =
      some (.ok frame)) :
    ∃ samples h e payload, PacketOf p rate m buffer total i frame samples h e payload := by
  have hpos := samples_pos_of_mem_pieces hsize (List.mem_of_getElem? hpiece)
  have hfirst : i * p.packetSamples = 0 ↔ i = 0 := by
    rw [Nat.mul_eq_zero]
    omega
  have hend := reaches_end_iff hsize hpiece
  have hnext : i + 1 < p.packets total ↔ (i + 1) * p.packetSamples < total := by
    rw [Plan.packets, ← length_pieces]
    exact lt_length_pieces hsize
  rw [length_pieces] at hend
  obtain rfl := getElem?_pieces hpiece
  obtain ⟨-, -, h, e, payload, hunpacks⟩ := Packing.frame_unpacks hframe
  have htime := hunpacks.time
  refine ⟨_, h, e, payload, hpos, Nat.min_le_left _ _, ?_, hend.mpr, hunpacks.unpacked, ?_, ?_,
    ?_, ?_, hunpacks.words, hunpacks.read, hconverter ▸ hunpacks.converted⟩
  · intro hmore
    have := hnext.mp hmore
    rw [Nat.add_mul] at this
    dsimp only
    omega
  · rw [hunpacks.startOfBurst, pieceMetadata, Bool.and_eq_true, beq_iff_eq, hfirst]
  · rw [hunpacks.endOfBurst, pieceMetadata, Bool.and_eq_true, beq_iff_eq, hend, Plan.packets]
  · rw [isSome_of_timeField htime]
    by_cases hi : i = 0
    · simp [pieceMetadata, hi]
    · simp [pieceMetadata, hi, hfirst]
  · rintro rfl
    simpa [pieceMetadata] using htime

/-- The frames that a link took are those of the pieces, made by the channel with its
converter. -/
theorem Accepted.frames {packing : Packing} {ps : List Piece} {c c' : Channel}
    (h : Accepted packing m total buffer c ps c') :
    ∃ new, c'.link.frames = c.link.frames ++ new ∧
      List.Forall₂ (fun piece frame => ∃ c₁ : Channel, c₁.converter = c.converter ∧
        packing.frame c₁ (pieceMetadata m total piece) buffer piece = some (.ok frame)) ps new := by
  induction h with
  | nil c => exact ⟨[], (List.append_nil _).symm, .nil⟩
  | @cons c c' piece rest frame hframe _ ih =>
    obtain ⟨new, hnew, hframes⟩ := ih
    refine ⟨frame :: new, ?_, .cons ⟨c, rfl, hframe⟩ hframes⟩
    rw [hnew, Channel.put, Link.carry, List.append_assoc]
    rfl

/-- Every link takes the packets of all samples in a call that sends all of them. -/
theorem packetsOf_taken {t t' : Transmitter} {buffers : List Bytes}
    (hsize : 0 < p.packetSamples) (htotal : 0 < total)
    (hpacking : t.packing = p.packing rate) (hsamples : t.packetSamples = p.packetSamples)
    (hconverter : ∀ c ∈ t.channels, c.converter = p.converter)
    (h : t.send buffers total m = some (t', .ok total)) :
    ∀ index < t.channels.length, ∃ buffer, buffers[index]? = some buffer ∧
      PacketsOf p rate m buffer total (taken t t' index) := by
  intro index hindex
  obtain ⟨hlength, rounds, blocked, hsent, hk⟩ := send_ok (hsamples ▸ hsize) htotal h
  have hc := List.getElem?_eq_getElem hindex
  have hbuffer := List.getElem?_eq_getElem (hlength ▸ hindex)
  obtain ⟨-, -, c', hc', haccepted⟩ := hsent.channel hc hbuffer
  -- no piece is left
  have hall : rounds = (pieces t.packetSamples total).length := by
    refine Nat.le_antisymm hsent.le (Nat.le_of_not_lt fun hlt => ?_)
    have hmore := (lt_length_pieces (hsamples ▸ hsize)).mp hlt
    omega
  rw [hsent.finished hall, if_neg (Nat.not_lt_zero _), hall, List.take_length, hpacking,
    hsamples] at haccepted
  obtain ⟨new, hnew, hframes⟩ := haccepted.frames
  refine ⟨_, hbuffer, ?_⟩
  rw [taken_of_append hc hc' hnew]
  refine ⟨hframes.length_eq.symm.trans (length_pieces _ _), fun i frame hframe => ?_⟩
  obtain ⟨hlt, hget⟩ := List.getElem?_eq_some_iff.mp hframe
  obtain ⟨c₁, hc₁, hmade⟩ := (List.forall₂_iff_get.mp hframes).2 i (hframes.length_eq ▸ hlt) hlt
  rw [List.get_eq_getElem, List.get_eq_getElem, hget] at hmade
  exact packetOf hsize (hc₁.trans (hconverter _ (List.getElem_mem hindex)))
    (List.getElem?_eq_getElem _) hmade

end

/-- Whatever became of a stream since it was set up, the packets that the link of a channel
took are numbered from zero on, and a call that sends all its samples gives the link of
every channel the packets of all of them. -/
theorem run_packets {o : StreamOptions} {settings : Settings} {links : List Link}
    {made t : Transmitter} {log : Nat → List Bytes}
    (hmade : create o settings links = some (.ok made)) (hrun : Run made log t) :
    ∃ p, plan o settings links = .ok p ∧
      (∀ index id, o.channels[index]? = some id → ∀ j frame, (log index)[j]? = some frame →
        IsPacket p.conversion.order (UInt32.ofNat id) j frame) ∧
      ∀ buffers total m t', 0 < total → t.send buffers total m = some (t', .ok total) →
        ∀ index < o.channels.length, ∃ buffer, buffers[index]? = some buffer ∧
          PacketsOf p t.packing.tickRate m buffer total (taken t t' index) := by
  obtain ⟨p, hplan, horder, hitem, -, hsamples, hchannels⟩ := create_eq_ok hmade
  obtain ⟨hlinks, -, hsize⟩ := plan_eq_ok hplan
  have hcounted := hrun.counted
  have hlength : made.channels.length = o.channels.length := by
    rw [hchannels, List.length_map, List.length_zip, hlinks, Nat.min_self]
  have hfresh {index : Nat} {c : Channel} (hc : made.channels[index]? = some c) :
      ∃ id, o.channels[index]? = some id ∧ c.streamId = UInt32.ofNat id ∧
        c.converter = p.converter ∧ c.count = 0 := by
    rw [hchannels, List.getElem?_map, Option.map_eq_some_iff] at hc
    obtain ⟨⟨l, id⟩, hpair, rfl⟩ := hc
    exact ⟨id, (List.getElem?_zip_eq_some.mp hpair).2, rfl, rfl, rfl⟩
  refine ⟨p, hplan, fun index id hid j frame hframe => ?_,
    fun buffers total m t' htotal hsend index hindex => ?_⟩
  · obtain ⟨hlt, -⟩ := List.getElem?_eq_some_iff.mp hid
    have hc := List.getElem?_eq_getElem (hlength ▸ hlt)
    have hc' := List.getElem?_eq_getElem (hcounted.length.trans hlength ▸ hlt)
    obtain ⟨id', hid', hstream, -, hcount⟩ := hfresh hc
    cases hid.symm.trans hid'
    have hpacket := (hcounted.channel hc hc').numbered j frame hframe
    rw [horder, hstream, hcount] at hpacket
    exact hpacket.of_mod_eq (by rw [UInt8.toNat_zero, Nat.zero_add])
  · have hpacking : t.packing = p.packing t.packing.tickRate := by
      rw [Plan.packing, ← horder, ← hitem, ← hcounted.order, ← hcounted.wireItem]
    refine packetsOf_taken hsize htotal hpacking (hcounted.packetSamples.trans hsamples)
      (fun c hc => ?_) hsend index (hcounted.length.trans hlength ▸ hindex)
    obtain ⟨k, hk⟩ := List.getElem?_of_mem hc
    obtain ⟨hlt, -⟩ := List.getElem?_eq_some_iff.mp hk
    have hfirst := List.getElem?_eq_getElem (hcounted.length ▸ hlt)
    obtain ⟨id, -, -, hconverter, -⟩ := hfresh hfirst
    exact (hcounted.channel hfirst hk).converter.trans hconverter

/-- One channel of two samples to a packet. -/
def twoToAPacket : Transmitter :=
  { secondFull with
    channels := [
      { link := { depth := 4 }, streamId := 7
        converter := (Sample.Converter.start (.compute (.packShorts .big .shorts))).setScalar
          (Sample.peak "sc16" / Real.ofNat 1) }]
    packetSamples := 2 }

/-- A burst of three samples at a time takes a full packet and one that is half full. -/
theorem run_packets_twoToAPacket :
    ∃ t', twoToAPacket.send [[1, 0, 2, 0, 3, 0, 4, 0, 5, 0, 6, 0]] 3
        { time := some .zero, startOfBurst := true, endOfBurst := true } = some (t', .ok 3) ∧
      ∃ p, plan { hostFormat := "sc16", wireFormat := "sc16", channels := [7] }
          { packetSamples := 2 } [{ depth := 4 }] = .ok p ∧
        (∀ j frame, (taken twoToAPacket t' 0)[j]? = some frame →
          IsPacket p.conversion.order 7 j frame) ∧
        PacketsOf p twoToAPacket.packing.tickRate
          { time := some .zero, startOfBurst := true, endOfBurst := true }
          [1, 0, 2, 0, 3, 0, 4, 0, 5, 0, 6, 0] 3 (taken twoToAPacket t' 0) := by
  have hmade : create { hostFormat := "sc16", wireFormat := "sc16", channels := [7] }
      { packetSamples := 2 } [{ depth := 4 }] = some (.ok twoToAPacket) := rfl
  have hsent : inFlight (twoToAPacket.send [[1, 0, 2, 0, 3, 0, 4, 0, 5, 0, 6, 0]] 3
      { time := some .zero, startOfBurst := true, endOfBurst := true }) = some (3, [[
        [0x12, 0x10, 0, 6, 0, 0, 0, 7, 0, 0, 0, 0, 0, 0, 0, 0, 0, 1, 0, 2, 0, 3, 0, 4],
        [0x11, 1, 0, 3, 0, 0, 0, 7, 0, 5, 0, 6]]]) := by decide +kernel
  obtain ⟨t', hsend, -⟩ := exists_of_inFlight hsent
  obtain ⟨p, hplan, -, hcall⟩ := run_packets hmade .start
  obtain ⟨p', hplan', hnumbered, -⟩ := run_packets hmade (.send .start hsend)
  cases hplan.symm.trans hplan'
  obtain ⟨buffer, hbuffer, hpackets⟩ := hcall _ 3 _ t' (by decide) hsend 0 (by decide)
  cases hbuffer
  exact ⟨t', hsend, p, hplan, hnumbered 0 7 rfl, hpackets⟩

end SampleStream.Transmitter
