import SampleStream.Proofs.Loopback.Run
import SampleStream.Proofs.Receive.Answers
import SampleStream.Proofs.Sample.Packing

/-!
# A burst of packed samples

A packet is sent in whole words, and what is received of it are as many samples as
its bytes come to. Three samples behind the last full block fill the same three words
as four do, and so one sample more arrives of such a burst than was sent, a zero
(`arrivals`). Otherwise a burst arrives as it was sent, each sample as what its twelve
bits come to.
-/

namespace SampleStream.Loopback
open Receive Sample

/-! ## The samples that arrive -/

/-- How many samples arrive of `n`. -/
def arrivals (n : Nat) : Nat := if n % 4 = 3 then n + 1 else n

theorem le_arrivals (n : Nat) : n ≤ arrivals n := by
  unfold arrivals
  split <;> omega

/-- The samples of three bytes that the words of `n` samples have room for. -/
theorem words_arrivals (n : Nat) : 4 * ((n * 3 + 3) / 4) / 3 = arrivals n := by
  have hrest : n % 4 < 4 := Nat.mod_lt n (by decide)
  rw [arrivals]
  by_cases hthree : n % 4 = 3
  · rw [if_pos hthree]
    omega
  · rw [if_neg hthree]
    rcases (by omega : n % 4 = 0 ∨ n % 4 = 1 ∨ n % 4 = 2) with hnone | hone | htwo
    · omega
    · omega
    · omega

/-- Full packets have whole blocks, and do not change what arrives of the rest. -/
theorem arrivals_add {size : Nat} (hsize : 4 ∣ size) (k n : Nat) :
    arrivals (k * size + n) = k * size + arrivals n := by
  obtain ⟨blocks, rfl⟩ := hsize
  have hmod : (k * (4 * blocks) + n) % 4 = n % 4 := by
    rw [Nat.mul_left_comm, Nat.mul_add_mod]
  rw [arrivals, arrivals, hmod]
  split <;> omega

theorem arrivals_of_dvd {size : Nat} (hsize : 4 ∣ size) : arrivals size = size := by
  have hone := arrivals_add hsize 1 0
  rw [Nat.one_mul, Nat.add_zero] at hone
  exact hone

/-- The last piece of a call has all that arrives behind the others, which arrive as
they are. -/
theorem arrivals_piece {size total : Nat} (hsize : 0 < size) (hblocks : 4 ∣ size)
    {piece : Transmit.Piece} (hpiece : piece ∈ Transmit.pieces size total) :
    (piece.start + piece.samples = total ∧
        piece.start + arrivals piece.samples = arrivals total) ∨
      (piece.start + piece.samples < total ∧ arrivals piece.samples = piece.samples) := by
  obtain ⟨j, hj⟩ := List.getElem?_of_mem hpiece
  have hmore := (Transmit.lt_length_pieces hsize).mp (List.getElem?_eq_some_iff.mp hj).1
  rw [Transmit.getElem?_pieces hj]
  dsimp only
  by_cases hlast : total ≤ j * size + size
  · have hrest : min size (total - j * size) = total - j * size := by omega
    have hall : j * size + (total - j * size) = total := by omega
    rw [hrest, ← arrivals_add hblocks, hall]
    exact .inl ⟨rfl, rfl⟩
  · have hfull : min size (total - j * size) = size := by omega
    rw [hfull, arrivals_of_dvd hblocks]
    exact .inr ⟨by omega, rfl⟩

/-- The precisions on both hosts, and the scalars to the wire and from it. -/
structure Passage where
  sent : Precision
  toWire : Float
  received : Precision
  toHost : Float

namespace Passage

/-- The passage between hosts of these precisions, on which `scale` and `scale'` are
full scale. -/
def between (p : Precision) (scale : Float) (p' : Precision) (scale' : Float) : Passage where
  sent := p
  toWire := peak "sc12" / scale
  received := p'
  toHost := scale' / peak "sc12" / Real.ofNat Block.growth

variable (t : Passage)

/-- The bytes of the sample with index `k` that arrives of the first `total` samples
of a buffer. Behind the last of them are zeros. -/
def arrived (buffer : Bytes) (total k : Nat) : Bytes :=
  Converter.decoded t.received t.toHost
    (if k < total then Converter.quantizedAt t.sent t.toWire buffer k else ⟨0, 0⟩)

/-- What arrives of a call of `total` samples. The last one ends the burst if the call
does. -/
def burst (m : Transmit.Metadata) (buffer : Bytes) (total : Nat) : List Token :=
  (List.range (arrivals total)).map fun k =>
    ⟨t.arrived buffer total k, m.endOfBurst && k + 1 == arrivals total⟩

@[simp] theorem length_burst (m : Transmit.Metadata) (buffer : Bytes) (total : Nat) :
    (t.burst m buffer total).length = arrivals total := by
  simp [burst]

theorem bytes_take_burst (m : Transmit.Metadata) (buffer : Bytes) {total n : Nat}
    (hn : n ≤ arrivals total) :
    ((t.burst m buffer total).take n).flatMap Token.bytes =
      (List.range n).flatMap (t.arrived buffer total) := by
  rw [burst, ← List.map_take, List.take_range, Nat.min_eq_left hn, List.flatMap_map]

/-- A part of what arrives ends the burst just if it is the last part, and not empty. -/
theorem any_burst {m : Transmit.Metadata} {buffer : Bytes} {total : Nat}
    {before new after : List Token} (hend : m.endOfBurst = true)
    (h : t.burst m buffer total = before ++ (new ++ after)) :
    new.any Token.endsBurst = true ↔
      0 < new.length ∧ before.length + new.length = arrivals total := by
  have hlength : before.length + (new.length + after.length) = arrivals total := by
    rw [← t.length_burst m buffer total, h, List.length_append, List.length_append]
  have hplace (j : Nat) (hj : j < new.length) :
      new[j].endsBurst = (before.length + j + 1 == arrivals total) := by
    have hall : (t.burst m buffer total)[before.length + j]? = some new[j] := by
      rw [h, List.getElem?_append_right (Nat.le_add_right ..), Nat.add_sub_cancel_left,
        List.getElem?_append_left hj, List.getElem?_eq_getElem hj]
    rw [burst, List.getElem?_map, List.getElem?_range (by omega), Option.map_some,
      Option.some.injEq] at hall
    rw [← hall, hend, Bool.true_and]
  rw [List.any_eq_true]
  constructor
  · rintro ⟨x, hx, hends⟩
    obtain ⟨j, hj, rfl⟩ := List.getElem_of_mem hx
    rw [hplace j hj, beq_iff_eq] at hends
    omega
  · rintro ⟨hpos, hall⟩
    refine ⟨new[new.length - 1], List.getElem_mem _, ?_⟩
    rw [hplace _ (by omega), beq_iff_eq]
    omega

/-- What arrives of a piece. -/
def pieceTokens (m : Transmit.Metadata) (buffer : Bytes) (piece : Transmit.Piece) : List Token :=
  (List.range (arrivals piece.samples)).map fun k =>
    ⟨t.arrived buffer (piece.start + piece.samples) (piece.start + k),
      m.endOfBurst && k + 1 == arrivals piece.samples⟩

/-- What arrives of all pieces of a call is what arrives of the call. -/
theorem flatMap_pieceTokens {size total : Nat} (hsize : 0 < size) (hblocks : 4 ∣ size)
    (m : Transmit.Metadata) (buffer : Bytes) :
    (Transmit.pieces size total).flatMap (fun piece =>
        t.pieceTokens (Transmitter.pieceMetadata m total piece) buffer piece) =
      t.burst m buffer total := by
  have htile := Transmit.flatMap_pieces hsize (Nat.le_refl (Transmit.pieces size total).length)
    arrivals rfl (arrivals_add hblocks) fun k =>
      (⟨t.arrived buffer total k, m.endOfBurst && k + 1 == arrivals total⟩ : Token)
  have hall : min total ((Transmit.pieces size total).length * size) = total := by
    have hend : (Transmit.pieces size total).length < (Transmit.pieces size total).length ↔
        (Transmit.pieces size total).length * size < total := Transmit.lt_length_pieces hsize
    omega
  rw [List.take_length, hall] at htile
  rw [burst, ← htile]
  refine List.flatMap_congr fun piece hpiece => List.map_congr_left fun k hk => ?_
  have hk := List.mem_range.mp hk
  have hmost := le_arrivals total
  have hcases := arrivals_piece hsize hblocks hpiece
  -- what is behind the samples of the last piece is behind all of them
  have hplace : k < piece.samples ↔ piece.start + k < total := by omega
  have hlast : (m.endOfBurst && piece.start + piece.samples == total &&
      k + 1 == arrivals piece.samples) =
        (m.endOfBurst && piece.start + k + 1 == arrivals total) := by
    rw [Bool.and_assoc]
    congr 1
    rw [Bool.eq_iff_iff]
    simp only [Bool.and_eq_true, beq_iff_eq]
    omega
  rw [Transmitter.pieceMetadata, hlast, arrived, arrived]
  simp only [Nat.add_lt_add_iff_left, hplace]

end Passage

/-! ## Two streams with packed samples -/

theorem readsBack_packed (t : Passage) {p : Transmit.Packing} {order : ByteOrder}
    (hitem : p.wireItem = 3) :
    ReadsBack p (.scaled (.packBlocks order t.sent) t.toWire)
      (.scaled (.unpackBlocks order t.received) t.toHost) 3 t.pieceTokens := by
  intro c m buffer frame payload piece h hconverter hholds hsamples
  have hwords : p.payloadWords piece.samples = (piece.samples * 3 + 3) / 4 := by
    rw [Transmit.Packing.payloadWords, hitem]
  have hconverted := hholds.converted
  rw [hwords, hconverter] at hconverted
  have hlength : payload.length = 4 * ((piece.samples * 3 + 3) / 4) := by
    rw [Converter.length_convert hconverted, List.length_replicate]
  have hcount : payload.length / 3 = arrivals piece.samples := by
    rw [hlength, words_arrivals]
  have hmost := le_arrivals piece.samples
  rw [Content.tokens, hcount]
  refine ⟨?_, by omega⟩
  rw [sampleTokens, Passage.pieceTokens, Nat.sub_zero]
  apply List.map_congr_left
  intro k hk
  have hroom : 3 * (k + 1) ≤ payload.length := by
    have hk := List.mem_range.mp hk
    omega
  rw [Nat.zero_add, Converter.sampleAt_of_pack hconverted hroom, hholds.endOfBurst,
    Passage.arrived]
  simp only [Nat.add_lt_add_iff_left]

section
variable {o o' : StreamOptions} {settings settings' : Settings} {link : Link}

theorem sender_packed {s : Transmitter} {p : Precision} {scale : Float}
    (h : Transmitter.create o settings [link] = some (.ok s))
    (hhost : o.hostFormat = StreamOptions.hostTag p) (hwire : o.wireFormat = "sc12")
    (hscale : o.fullScale settings.fullScale = .ok scale) :
    0 < s.packetSamples ∧ 4 ∣ s.packetSamples ∧ s.packing.wireItem = 3 ∧
      ∃ c, s.channels = [c] ∧ c.link = link ∧ c.count = 0 ∧
        c.converter = .scaled (.packBlocks s.packing.order p) (peak "sc12" / scale) := by
  obtain ⟨plan, hplan, horder, hitem, -, hsize, hchannels⟩ := Transmitter.create_eq_ok h
  obtain ⟨hlength, hconversion, hpos⟩ := Transmitter.plan_eq_ok hplan
  obtain ⟨scale', hscale', hscalar, hblocks⟩ := Transmitter.scalar_of_plan hplan
  obtain ⟨hwireItem, -, hmethod⟩ := StreamOptions.conversion_packed hhost hwire hconversion
  cases hscale.symm.trans hscale'
  obtain ⟨channel, hchannel⟩ := List.length_eq_one_iff.mp hlength.symm
  rw [hchannel, hmethod, hscalar, hwire, ← horder] at hchannels
  rw [hwireItem] at hblocks
  rw [hsize]
  exact ⟨hpos, hblocks, hitem.trans hwireItem, _, hchannels, rfl, rfl, rfl⟩

theorem receiver_packed {r : Receiver} {p : Precision} {scale : Float}
    (h : Receiver.Built o settings [link] r) (hhost : o.hostFormat = StreamOptions.hostTag p)
    (hwire : o.wireFormat = "sc12") (hscale : o.fullScale settings.fullScale = .ok scale) :
    r.wireItem = 3 ∧ r.hostItem = p.sampleBytes ∧ ∃ d, r.channels = [d] ∧ d.link = link ∧
      d.converter = .scaled (.unpackBlocks r.order p)
        (scale / peak "sc12" / Real.ofNat Block.growth) := by
  obtain ⟨made, hmade, hr⟩ := h
  obtain ⟨conversion, -, hconversion, horder, hitem, hhostItem, -⟩ := Receiver.create_eq_ok hmade
  obtain ⟨conversion', scale', hconversion', hscale', hchannels⟩ := Receiver.scalar_of_create hmade
  obtain ⟨hwireItem, hhostItem', hmethod⟩ := StreamOptions.conversion_packed hhost hwire hconversion
  cases hconversion.symm.trans hconversion'
  cases hscale.symm.trans hscale'
  rw [hmethod, hwire, ← horder] at hchannels
  rw [hr]
  exact ⟨hitem.trans hwireItem, hhostItem.trans hhostItem', _, hchannels, rfl, rfl⟩

/-- What two streams with packed samples keep from call to call. -/
structure Packs (t : Passage) (l : Loopback) (c : Transmit.Channel) (d : Receive.Channel) :
    Prop where
  coupled : l.Coupled t.pieceTokens c d
  blocks : 4 ∣ l.sender.packetSamples
  hostItem : l.receiver.hostItem = t.received.sampleBytes
  sound : l.receiver.Sound l.receiver.wireItem l.receiver.hostItem

theorem SetUp.packs {l : Loopback} {p p' : Precision} {scale scale' : Float}
    (h : l.SetUp o o' settings settings' link)
    (hhost : o.hostFormat = StreamOptions.hostTag p) (hwire : o.wireFormat = "sc12")
    (hscale : o.fullScale settings.fullScale = .ok scale)
    (hhost' : o'.hostFormat = StreamOptions.hostTag p') (hwire' : o'.wireFormat = "sc12")
    (hscale' : o'.fullScale settings'.fullScale = .ok scale') :
    ∃ c d, l.Packs (.between p scale p' scale') c d := by
  obtain ⟨hsize, hblocks, hitem, c, hchannels, hlink, hcount, hconverter⟩ :=
    sender_packed h.sender hhost hwire hscale
  obtain ⟨hitem', hhostItem, d, hchannels', hlink', hconverter'⟩ :=
    receiver_packed h.receiver hhost' hwire' hscale'
  have hreadsBack : ReadsBack l.sender.packing c.converter d.converter l.receiver.wireItem
      (Passage.between p scale p' scale').pieceTokens := by
    rw [hitem', hconverter, hconverter', h.order]
    exact readsBack_packed (.between p scale p' scale') hitem
  obtain ⟨hcoupled, -⟩ :=
    h.coupled_of hsize hchannels hlink hcount hchannels' hlink' hreadsBack
  exact ⟨c, d, hcoupled, hblocks, hhostItem, h.receiver.sound⟩

end

section
variable {t : Passage} {l l' : Loopback} {c : Transmit.Channel} {d : Receive.Channel}

/-- The channels may change as long as they stay coupled. -/
theorem Packs.withChannels (h : l.Packs t c d) {c' : Transmit.Channel}
    (hcoupled : (l.withChannels c' { d with link := c'.link }).Coupled t.pieceTokens c'
      { d with link := c'.link }) :
    (l.withChannels c' { d with link := c'.link }).Packs t c' { d with link := c'.link } := by
  refine ⟨hcoupled, h.blocks, h.hostItem, rfl, rfl, fun e he => ?_⟩
  cases List.mem_singleton.mp he
  refine (h.sound.channels d ?_).linked c'.link
  rw [h.coupled.inOrder.channels]
  exact List.mem_singleton_self d

theorem Packs.send {call : Sending} (h : l.Packs t c d) (htotal : 0 < call.total)
    (hsend : l.send call.buffers call.total call.metadata = some (l', call.result)) :
    ∃ c' d', l'.Packs t c' d' ∧ (call.result = .ok call.total → l'.pending d' =
      l.pending d ++ t.burst call.metadata (call.buffers[0]?.getD []) call.total) := by
  rcases send_coupled h.coupled htotal hsend with
    ⟨e, hresult, rfl⟩ | ⟨buffer, rounds, c', hbuffers, hrounds, hresult, rfl, hcoupled, hpending, -⟩
  · refine ⟨c, d, h, fun hall => ?_⟩
    rw [hresult] at hall
    cases hall
  · refine ⟨c', _, h.withChannels hcoupled, fun hsent => ?_⟩
    -- where all samples were taken, all pieces were
    have hall : rounds = (Transmit.pieces l.sender.packetSamples call.total).length := by
      have hend : rounds < (Transmit.pieces l.sender.packetSamples call.total).length ↔
          rounds * l.sender.packetSamples < call.total :=
        Transmit.lt_length_pieces h.coupled.packetSamples
      have hcount := Except.ok.inj (hresult.symm.trans hsent)
      omega
    rw [hpending, hall, List.take_length,
      t.flatMap_pieceTokens h.coupled.packetSamples h.blocks, hbuffers]
    rfl

/-- A receive takes from the front of what is pending, or it returns nothing. -/
theorem Packs.recv {call : Receiving} (h : l.Packs t c d)
    (hrecv : l.recv call.buffers call.wanted call.onePacket = some (l', call.result)) :
    ∃ c' d' out, l'.Packs t c' d' ∧ l.pending d = out ++ l'.pending d' ∧
      call.returned = out.length ∧ call.bytes t.received.sampleBytes = out.flatMap Token.bytes ∧
      ∀ got, call.result = .ok got → got.metadata.endOfBurst = out.any Token.endsBurst := by
  rcases recv_coupled h.coupled hrecv with
    ⟨e, hresult, -, rfl⟩ | ⟨buffer, got, c', d', out, -, hresult, hcoupled, hpending, hg⟩
  · refine ⟨c, d, [], h, rfl, Receiving.returned_of_error hresult,
      Receiving.bytes_of_error _ hresult, fun got hgot => ?_⟩
    rw [hresult] at hgot
    cases hgot
  · obtain ⟨hcount, hbytes⟩ := Receiving.bytes_of_gathered hresult hg
    rw [h.hostItem] at hbytes
    have hwire := Receiver.wireItem_of_setup hg.passes.setup
    have hhost := Receiver.hostItem_of_setup hg.passes.setup
    obtain ⟨hreceive, hsender⟩ := recv_eq_some hrecv
    have hsound := h.sound.recv hreceive
    have hblocks : 4 ∣ l'.sender.packetSamples := by
      rw [hsender]
      exact h.blocks
    refine ⟨c', d', out, ⟨hcoupled, hblocks, hhost.trans h.hostItem, ?_⟩, hpending, hcount, hbytes,
      fun got' hgot' => ?_⟩
    · rw [hwire, hhost]
      exact hsound
    · rw [hresult] at hgot'
      cases hgot'
      exact hg.endOfBurst

theorem Packs.run {actions : List Action} (h : l.Packs t c d) (hrun : Run l actions l') :
    ∃ c' d', l'.Packs t c' d' := by
  induction hrun with
  | start => exact ⟨c, d, h⟩
  | step _ hstep ih =>
    obtain ⟨c₁, d₁, h₁⟩ := ih
    cases hstep with
    | send htotal hsend =>
      obtain ⟨c₂, d₂, h₂, -⟩ := h₁.send htotal hsend
      exact ⟨c₂, d₂, h₂⟩
    | recv hrecv =>
      obtain ⟨c₂, d₂, -, h₂, -⟩ := h₁.recv hrecv
      exact ⟨c₂, d₂, h₂⟩

/-- Receives take one after the other from the front of what is pending. -/
theorem Packs.receives {calls : List Receiving} (h : l.Packs t c d)
    (hrun : Run l (calls.map .recv) l') :
    ∃ c' d' out, l'.Packs t c' d' ∧ l.pending d = out ++ l'.pending d' ∧
      samplesReturned (calls.map .recv) = out.length ∧
      receivedBytes t.received.sampleBytes (calls.map .recv) = out.flatMap Token.bytes ∧
      (l.receiver.Timely → l'.receiver.Timely) := by
  generalize hactions : calls.map Action.recv = actions at hrun
  induction hrun generalizing calls with
  | start => exact ⟨c, d, [], h, rfl, rfl, rfl, id⟩
  | @step actions l₁ l₂ a _ hstep ih =>
    obtain ⟨before, last, rfl, rfl, hlast⟩ := List.map_eq_append_iff.mp hactions
    obtain ⟨call, rfl, rfl⟩ := List.map_eq_singleton_iff.mp hlast
    obtain ⟨c₁, d₁, out, h₁, hpending, hcount, hbytes, htimely⟩ := ih rfl
    cases hstep with
    | recv hrecv =>
      obtain ⟨c₂, d₂, new, h₂, hpending', hcount', hbytes', -⟩ := h₁.recv hrecv
      refine ⟨c₂, d₂, out ++ new, h₂, ?_, ?_, ?_, fun hbefore => ?_⟩
      · rw [hpending, hpending', List.append_assoc]
      · rw [samplesReturned_snoc, hcount, List.length_append, ← hcount']
        rfl
      · rw [receivedBytes_snoc, hbytes, List.flatMap_append, ← hbytes']
        rfl
      · exact (htimely hbefore).recv h₁.sound (recv_eq_some hrecv).1

/-- Only the first piece has the time of the call. -/
theorem dates_piece {p : Transmit.Packing} {m : Transmit.Metadata} {tickRate sampleRate : Float}
    (hdates : ∀ streamId count header, p.header streamId count m = some header →
      Dates tickRate sampleRate header)
    {total : Nat} (piece : Transmit.Piece) {streamId : UInt32} {count : UInt8} {header : Header}
    (hheader : p.header streamId count (Transmitter.pieceMetadata m total piece) = some header) :
    Dates tickRate sampleRate header := by
  by_cases hfirst : piece.start = 0
  · have htime : (Transmitter.pieceMetadata m total piece).time = m.time := by
      simp [Transmitter.pieceMetadata, hfirst]
    have hmap := p.map_time_header streamId count (Transmitter.pieceMetadata m total piece)
    rw [htime, ← p.map_time_header streamId count m, hheader] at hmap
    obtain ⟨given, hgiven, hsame⟩ := Option.map_eq_some_iff.mp hmap.symm
    exact (hdates streamId count given hgiven).of_time hsame.symm
  · refine dates_of_untimed (Transmit.Packing.header_untimed ?_ hheader)
    simp [Transmitter.pieceMetadata, hfirst]

/-- After a send into an empty queue all times in it are those that the sender stamps. -/
theorem Packs.timely_send {call : Sending} (h : l.Packs t c d) (hdrained : l.Drained)
    (htotal : 0 < call.total)
    (hdates : ∀ streamId count header,
      l.sender.packing.header streamId count call.metadata = some header →
        Dates l.receiver.tickRate l.receiver.sampleRate header)
    (hsend : l.send call.buffers call.total call.metadata = some (l', call.result)) :
    l'.receiver.Timely := by
  obtain ⟨hframes, hheld⟩ := h.coupled.drained hdrained
  rcases send_coupled h.coupled htotal hsend with
    ⟨e, -, rfl⟩ | ⟨buffer, rounds, c', -, -, -, rfl, -, -, haccepted⟩
  · intro e he
    rw [h.coupled.inOrder.channels] at he
    cases List.mem_singleton.mp he
    refine ⟨fun frame hframe => ?_, fun p hp => ?_⟩
    · rw [hframes] at hframe
      cases hframe
    · rw [hheld] at hp
      cases hp
  · intro e he
    cases List.mem_singleton.mp he
    refine ⟨fun frame hframe header extent hunpack => ?_, fun p hp => ?_⟩
    · rcases haccepted.mem_frames hframe with hold | ⟨c₁, piece, hmade⟩
      · rw [← h.coupled.link, hframes] at hold
        cases hold
      · have hunpack : Header.unpack l.sender.packing.order frame = .ok (header, extent) := by
          rw [h.coupled.order]
          exact hunpack
        obtain ⟨made, hheader, htime⟩ := Transmit.Packing.time_of_frame hmade hunpack
        exact (dates_piece hdates piece hheader).of_time htime
    · cases hheld.symm.trans hp

end

/-! ## Bursts -/

/-- What is received of a burst that arrives as `n` samples, the one with index `k` as
the bytes `sample k`. -/
structure Arrives (l : Loopback) (hostItem n : Nat) (sample : Nat → Bytes) : Prop where
  /-- The samples returned are the first ones, in order. -/
  inOrder : ∀ {calls : List Receiving} {l' : Loopback}, Run l (calls.map .recv) l' →
    samplesReturned (calls.map .recv) ≤ n ∧
      receivedBytes hostItem (calls.map .recv) =
        (List.range (samplesReturned (calls.map .recv))).flatMap sample
  /-- A call reports the end of the burst just if it returned the last sample. -/
  ends : ∀ {calls : List Receiving} {last : Receiving} {l' : Loopback} {got : Receiver.Received},
    Run l ((calls ++ [last]).map .recv) l' → last.result = .ok got →
      (got.metadata.endOfBurst = true ↔
        0 < got.samples ∧ samplesReturned ((calls ++ [last]).map .recv) = n)

theorem Packs.arrives {t : Passage} {l : Loopback} {c : Transmit.Channel} {d : Receive.Channel}
    {m : Transmit.Metadata} {buffer : Bytes} {total : Nat} (h : l.Packs t c d)
    (hpending : l.pending d = t.burst m buffer total) (hend : m.endOfBurst = true) :
    l.Arrives t.received.sampleBytes (arrivals total) (t.arrived buffer total) := by
  constructor
  · intro calls l' hrun
    obtain ⟨c', d', out, -, hqueue, hcount, hbytes, -⟩ := h.receives hrun
    rw [hpending] at hqueue
    have hle : out.length ≤ arrivals total := by
      rw [← t.length_burst m buffer total, hqueue, List.length_append]
      exact Nat.le_add_right ..
    refine ⟨hcount ▸ hle, ?_⟩
    rw [hbytes, hcount, ← t.bytes_take_burst m buffer hle, hqueue, List.take_left]
  · intro calls last l' got hrun hgot
    rw [List.map_append, List.map_singleton] at hrun ⊢
    obtain ⟨l₁, l₂, hbefore, hstep⟩ := hrun.split
    obtain ⟨c₁, d₁, out, h₁, hqueue, hcount, -⟩ := h.receives hbefore
    cases hstep with
    | recv hrecv =>
      obtain ⟨c₂, d₂, new, -, hqueue', hcount', -, htold⟩ := h₁.recv hrecv
      have hsamples : got.samples = new.length := by
        rw [← hcount', Receiving.returned_of_ok hgot]
      rw [hpending, hqueue'] at hqueue
      rw [htold got hgot, t.any_burst hend hqueue, samplesReturned_snoc, hcount, hsamples,
        Action.returned, hcount']

/-- A burst of packed samples that was sent whole, after calls that left nothing in
flight, arrives in order, each sample as what its twelve bits come to, and with a zero
more where three samples are left behind its full blocks. Up to the call that reports
its end as many samples are returned as were sent just if that is not so. Until then a
call with room for samples returns some, if the times that the sender stamps are in
range at the receiver. -/
theorem packed_burst_arrives {o o' : StreamOptions} {settings settings' : Settings} {link : Link}
    {l₀ l₁ l₂ : Loopback} {p p' : Precision} {scale scale' : Float} {before : List Action}
    {call : Sending} (hsetup : l₀.SetUp o o' settings settings' link)
    (hhost : o.hostFormat = StreamOptions.hostTag p) (hwire : o.wireFormat = "sc12")
    (hscale : o.fullScale settings.fullScale = .ok scale)
    (hhost' : o'.hostFormat = StreamOptions.hostTag p') (hwire' : o'.wireFormat = "sc12")
    (hscale' : o'.fullScale settings'.fullScale = .ok scale') (hbefore : Run l₀ before l₁)
    (hdrained : l₁.Drained) (hsend : Step l₁ (.send call) l₂)
    (hsent : call.result = .ok call.total) (hend : call.metadata.endOfBurst = true) :
    l₂.Arrives p'.sampleBytes (arrivals call.total)
        ((Passage.between p scale p' scale').arrived (call.buffers[0]?.getD []) call.total) ∧
      (∀ {calls : List Receiving} {last : Receiving} {l : Loopback} {got : Receiver.Received},
        Run l₂ ((calls ++ [last]).map .recv) l → last.result = .ok got →
          got.metadata.endOfBurst = true →
          (samplesReturned ((calls ++ [last]).map .recv) = call.total ↔ call.total % 4 ≠ 3)) ∧
      ((∀ streamId count header,
          l₁.sender.packing.header streamId count call.metadata = some header →
            Dates l₁.receiver.tickRate l₁.receiver.sampleRate header) →
        ∀ {calls : List Receiving} {l : Loopback}, Run l₂ (calls.map .recv) l →
          samplesReturned (calls.map .recv) < arrivals call.total →
          ∀ (buffer : Bytes) (wanted : Nat) (onePacket : Bool), 0 < wanted →
            wanted * p'.sampleBytes ≤ buffer.length → wanted * p'.sampleBytes < sizeLimit →
            ∃ l' got, l.recv [buffer] wanted onePacket = some (l', .ok got) ∧ 0 < got.samples) := by
  obtain ⟨c₀, d₀, h₀⟩ := hsetup.packs hhost hwire hscale hhost' hwire' hscale'
  obtain ⟨c₁, d₁, h₁⟩ := h₀.run hbefore
  cases hsend with
  | send htotal hsend =>
    obtain ⟨c₂, d₂, h₂, hburst⟩ := h₁.send htotal hsend
    have hpending := hburst hsent
    rw [h₁.coupled.pending_of_drained hdrained, List.nil_append] at hpending
    have harrives := h₂.arrives hpending hend
    refine ⟨harrives, ?_, ?_⟩
    · intro calls last l got hrun hgot htold
      obtain ⟨-, hall⟩ := (harrives.ends hrun hgot).mp htold
      rw [hall, arrivals]
      split <;> omega
    · intro hdates calls l hrun hmore buffer wanted onePacket hwanted hroom hlimit
      have htimely := h₁.timely_send hdrained htotal hdates hsend
      obtain ⟨c, d, out, h, hqueue, hcount, -, hkept⟩ := h₂.receives hrun
      have hqueue' : l.pending d ≠ [] := by
        intro hnone
        rw [hpending, hnone, List.append_nil] at hqueue
        rw [hcount, ← hqueue, Passage.length_burst] at hmore
        exact Nat.lt_irrefl _ hmore
      have hhostItem : l.receiver.hostItem = p'.sampleBytes := h.hostItem
      obtain ⟨r, got, hrecv, hsome⟩ := h.coupled.inOrder.recv_returns (hkept htimely) h.sound
        hqueue' hwanted (hhostItem ▸ hroom) (hhostItem ▸ hlimit) onePacket
      refine ⟨⟨l.sender.withLinks (r.channels.map (·.link)), r⟩, got, ?_, hsome⟩
      rw [Loopback.recv, hrecv]
      rfl

/-! ## Three samples -/

/-- Two streams of packets with four packed samples on an empty link. -/
def packedPair : Loopback where
  sender := {
    channels := [{
      link := { depth := 4 }, streamId := 0
      converter := (Converter.start (.compute (.packBlocks .big .single))).setScalar
        (peak "sc12" / Real.ofNat 1) }]
    packing := { order := .big, wireItem := 3, tickRate := Real.ofNat 100000000 }
    hostItem := 8
    packetSamples := 4
    worker := {
      order := .big, rate := Real.ofNat 100000000, channel := 0
      queue := { capacity := 1000, capacity_pos := Settings.reportDepth_pos } } }
  receiver := Receiver.packedChannel

theorem setUp_packedPair :
    packedPair.SetUp { hostFormat := "fc32", wireFormat := "sc12" }
      { hostFormat := "fc32", wireFormat := "sc12" } { packetSamples := 4 } {} { depth := 4 } :=
  ⟨rfl, Receiver.built_packedChannel, rfl, rfl, rfl, rfl⟩

theorem eq_ok_of_toOption {ε α : Type} {x : Except ε α} {a : α} (h : x.toOption = some a) :
    x = .ok a := by
  cases x with
  | error e => cases h
  | ok b =>
    cases h
    rfl

/-- Of three samples four are received. -/
theorem packed_burst_of_three :
    ∃ sent result got l l', Step packedPair (.send ⟨[List.replicate 24 0], 3, .burstEnd, sent⟩) l ∧
      sent = .ok 3 ∧ Step l (.recv ⟨[List.replicate 64 0], 8, false, result⟩) l' ∧
      result = .ok got ∧ got.samples = 4 ∧ got.metadata.endOfBurst = true := by
  have hcalls : ((packedPair.send [List.replicate 24 0] 3 .burstEnd).bind fun sent =>
      (sent.1.recv [List.replicate 64 0] 8 false).map fun received =>
        (sent.2.toOption, received.2.toOption.map fun got =>
          (got.samples, got.metadata.endOfBurst))) = some (some 3, some (4, true)) := by
    decide +kernel
  simp only [Option.bind_eq_some_iff, Option.map_eq_some_iff, Prod.mk.injEq] at hcalls
  obtain ⟨⟨l, sent⟩, hsend, ⟨l', result⟩, hrecv, hsent, got, hgot, hsamples, hends⟩ := hcalls
  exact ⟨sent, result, got, l, l', .send (Nat.succ_pos 2) hsend, eq_ok_of_toOption hsent,
    .recv hrecv, eq_ok_of_toOption hgot, hsamples, hends⟩

/-- Five samples, the last of them in a packet of its own. -/
theorem packed_burst_arrives_five :
    ∃ sent l l' got, Step packedPair (.send ⟨[List.replicate 40 0], 5, .burstEnd, sent⟩) l ∧
      l.Arrives 8 5 ((Passage.between .single (Real.ofNat 1) .single (Real.ofNat 1)).arrived
        (List.replicate 40 0) 5) ∧
      l.recv [List.replicate 40 0] 5 false = some (l', .ok got) ∧ 0 < got.samples := by
  have hcall : (packedPair.send [List.replicate 40 0] 5 .burstEnd).map (fun a => a.2.toOption) =
      some (some 5) := by decide +kernel
  obtain ⟨⟨l, sent⟩, hsend, hsent⟩ := Option.map_eq_some_iff.mp hcall
  have hstep : Step packedPair (.send ⟨[List.replicate 40 0], 5, .burstEnd, sent⟩) l :=
    .send (Nat.succ_pos 4) hsend
  have hdrained : packedPair.Drained := by
    intro d hd
    cases List.mem_singleton.mp hd
    exact ⟨rfl, rfl⟩
  have hformat : "fc32" = StreamOptions.hostTag .single := rfl
  obtain ⟨harrives, -, hgoes⟩ := packed_burst_arrives setUp_packedPair hformat rfl rfl hformat rfl
    rfl .start hdrained hstep (eq_ok_of_toOption hsent) rfl
  have harrives : l.Arrives 8 (arrivals 5)
      ((Passage.between .single (Real.ofNat 1) .single (Real.ofNat 1)).arrived
        (List.replicate 40 0) 5) := harrives
  have hdates : ∀ streamId count header,
      packedPair.sender.packing.header streamId count .burstEnd = some header →
        Dates packedPair.receiver.tickRate packedPair.receiver.sampleRate header :=
    fun _ _ _ hheader => dates_of_untimed (Transmit.Packing.header_untimed rfl hheader)
  have hnone : Run l (([] : List Receiving).map .recv) l := .start
  have hmore : samplesReturned (([] : List Receiving).map .recv) < arrivals 5 := by decide
  obtain ⟨l', got, hrecv, hsome⟩ :=
    hgoes hdates hnone hmore (List.replicate 40 0) 5 false (by decide) (by decide) (by decide)
  exact ⟨sent, l, l', got, hstep, harrives, hrecv, hsome⟩

end SampleStream.Loopback
