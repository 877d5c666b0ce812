import SampleStream.Proofs.Packet.Frames
import SampleStream.Proofs.Receive.Fetch
import SampleStream.Proofs.Sample.Encode
import SampleStream.Transmit.Call

/-!
# The frames of a transmit stream

Everything that went into a frame is read back of it: the count, the flags and the
time of its piece, and as its payload what the converter made (`frame_unpacks`). At
the far end it is therefore a packet of samples (`frame_holds`). How many words it
has follows from the piece alone (`Packing.words`), so that whether it can be framed
and sent at all does too (`offer_error`).
-/

namespace SampleStream.Transmit

namespace Packing

/-- Words of the packet of a piece: the first one, the stream identifier, the time
if there is one, and the samples. -/
def words (p : Packing) (m : Metadata) (samples : Nat) : Nat :=
  2 + 2 * m.time.isSome.toNat + p.payloadWords samples

theorem words_le (p : Packing) {m m' : Metadata} {samples samples' : Nat}
    (htime : m'.time = none ∨ m'.time = m.time) (hsamples : samples' ≤ samples) :
    p.words m' samples' ≤ p.words m samples := by
  have hitems := Nat.mul_le_mul_right p.wireItem hsamples
  have hpayload : p.payloadWords samples' ≤ p.payloadWords samples :=
    Nat.div_le_div_right (Nat.add_le_add_right hitems 3)
  have hheader : m'.time.isSome.toNat ≤ m.time.isSome.toNat := by
    rcases htime with hnone | hsame
    · rw [hnone]
      exact Nat.zero_le _
    · exact Nat.le_of_eq (by rw [hsame])
  simp only [words]
  omega

theorem header_eq {p : Packing} {streamId : UInt32} {count : UInt8} {m : Metadata} {h : Header}
    (hheader : p.header streamId count m = some h) :
    ∃ ticks, ticks.isSome = m.time.isSome ∧
      h = { Header.forData streamId with
        count, startOfBurst := m.startOfBurst, endOfBurst := m.endOfBurst
        fractionalTime := ticks } := by
  simp only [header, bind, Option.bind_eq_some_iff] at hheader
  obtain ⟨ticks, hticks, hheader⟩ := hheader
  cases hheader
  refine ⟨_, ?_, rfl⟩
  cases htime : m.time with
  | none =>
    rw [htime] at hticks
    cases hticks
    rfl
  | some time =>
    rw [htime] at hticks
    simp only [Option.mapM_some, Option.map_eq_map, Option.map_eq_some_iff] at hticks
    obtain ⟨n, -, rfl⟩ := hticks
    rfl

theorem total_header {p : Packing} {streamId : UInt32} {count : UInt8} {m : Metadata} {h : Header}
    (hheader : p.header streamId count m = some h) (samples : Nat) :
    (h.extent (p.payloadWords samples)).total = p.words m samples := by
  obtain ⟨ticks, hticks, rfl⟩ := header_eq hheader
  rw [Header.total_extent, words, ← hticks, Header.size, Header.length_fieldWords]
  simp [Header.completed, Header.forData]
  omega

/-- The field of a time in ticks, if there is a time. -/
def timeField (p : Packing) (time : Option Time) : Checked (Option UInt64) :=
  (time.mapM fun time : Time => time.toTicks p.tickRate).map fun ticks =>
    ticks.map fun n => (Int64.ofInt n).toUInt64

/-- The time in a header is that of the metadata alone. -/
theorem map_time_header (p : Packing) (streamId : UInt32) (count : UInt8) (m : Metadata) :
    (p.header streamId count m).map Header.fractionalTime = p.timeField m.time := by
  unfold header timeField
  cases m.time.mapM fun time : Time => time.toTicks p.tickRate with
  | none => rfl
  | some ticks => rfl

theorem header_untimed {p : Packing} {m : Metadata} {streamId : UInt32} {count : UInt8}
    {h : Header} (htime : m.time = none) (hheader : p.header streamId count m = some h) :
    h.fractionalTime = none := by
  have hmap := map_time_header p streamId count m
  rw [htime, hheader] at hmap
  exact Option.some.inj hmap

/-- What is read back of a frame. -/
structure Unpacks (p : Packing) (c : Channel) (m : Metadata) (buffer : Bytes) (piece : Piece)
    (frame : Bytes) (h : Header) (e : Extent) (payload : Bytes) : Prop where
  unpacked : Header.unpack p.order frame = .ok (h, e)
  packetClass : h.packetClass = .data
  count : h.count = UInt8.ofNat (c.count.toNat % 16)
  streamId : h.streamId = some c.streamId
  startOfBurst : h.startOfBurst = m.startOfBurst
  endOfBurst : h.endOfBurst = m.endOfBurst
  time : p.timeField m.time = some h.fractionalTime
  words : e.payload = p.payloadWords piece.samples
  read : e.payloadOf frame = some payload
  converted : c.converter.convert ⟨buffer, piece.start⟩
    ⟨List.replicate (4 * p.payloadWords piece.samples) 0, 0⟩ piece.samples = some payload

/-- What is read of a frame at the far end. -/
structure Holds (p : Packing) (c : Channel) (m : Metadata) (buffer : Bytes) (piece : Piece)
    (frame : Bytes) (h : Header) (payload : Bytes) : Prop where
  content : Receive.contentOf p.order frame = .samples h payload
  count : h.count = UInt8.ofNat (c.count.toNat % 16)
  streamId : h.streamId = some c.streamId
  startOfBurst : h.startOfBurst = m.startOfBurst
  endOfBurst : h.endOfBurst = m.endOfBurst
  converted : c.converter.convert ⟨buffer, piece.start⟩
    ⟨List.replicate (4 * p.payloadWords piece.samples) 0, 0⟩ piece.samples = some payload

variable {p : Packing} {c : Channel} {m : Metadata} {buffer : Bytes} {piece : Piece}

theorem Unpacks.holds {frame payload : Bytes} {h : Header} {e : Extent}
    (hunpacks : p.Unpacks c m buffer piece frame h e payload) :
    p.Holds c m buffer piece frame h payload where
  content := by
    rw [Receive.contentOf, hunpacks.unpacked]
    dsimp only
    rw [hunpacks.read, hunpacks.packetClass]
    rfl
  count := hunpacks.count
  streamId := hunpacks.streamId
  startOfBurst := hunpacks.startOfBurst
  endOfBurst := hunpacks.endOfBurst
  converted := hunpacks.converted

theorem frame_error {e : FramingError} (h : p.frame c m buffer piece = some (.error e)) :
    maxPacketWords < p.words m piece.samples := by
  simp only [frame, bind, Option.bind_eq_some_iff] at h
  obtain ⟨header, hheader, h⟩ := h
  rw [← total_header hheader]
  exact Header.frame_error h

theorem frame_of_long {h : Header} (hheader : p.header c.streamId c.count m = some h)
    (hlong : maxPacketWords < p.words m piece.samples)
    (hstored : p.words m piece.samples * 4 < storageLimit) :
    p.frame c m buffer piece = some (.error .badHeader) := by
  rw [← total_header hheader] at hlong hstored
  simp only [frame, hheader, bind, Option.bind_some]
  exact Header.frame_of_long p.order _ hlong hstored

/-- A frame is as long as its words, and everything in it is read back. -/
theorem frame_unpacks {frame : Bytes} (h : p.frame c m buffer piece = some (.ok frame)) :
    p.words m piece.samples ≤ maxPacketWords ∧ frame.length = 4 * p.words m piece.samples ∧
      ∃ header extent payload, p.Unpacks c m buffer piece frame header extent payload := by
  simp only [Packing.frame, bind, Option.bind_eq_some_iff] at h
  obtain ⟨header, hheader, h⟩ := h
  have htotal := total_header hheader piece.samples
  have htime := p.map_time_header c.streamId c.count m
  rw [hheader, Option.map_some] at htime
  obtain ⟨ticks, -, rfl⟩ := header_eq hheader
  obtain ⟨hsmall, hlength, payload, hpayload, hunpack, hread⟩ := Header.unpack_frame
    (fun _ hconvert => (Sample.Converter.length_convert hconvert).trans List.length_replicate) h
  rw [htotal] at hsmall hlength
  exact ⟨hsmall, hlength, _, _, payload, hunpack, rfl, rfl, rfl, rfl, rfl, htime.symm, rfl, hread,
    hpayload⟩

theorem frame_holds {frame : Bytes} (h : p.frame c m buffer piece = some (.ok frame)) :
    p.words m piece.samples ≤ maxPacketWords ∧ frame.length = 4 * p.words m piece.samples ∧
      ∃ header payload, p.Holds c m buffer piece frame header payload := by
  obtain ⟨hsmall, hlength, header, extent, payload, hunpacks⟩ := frame_unpacks h
  exact ⟨hsmall, hlength, header, payload, hunpacks.holds⟩

/-- The time that is read of a frame is that of the header it was made with. -/
theorem time_of_frame {frame : Bytes} {h : Header} {e : Extent}
    (hframe : p.frame c m buffer piece = some (.ok frame))
    (hunpack : Header.unpack p.order frame = .ok (h, e)) :
    ∃ header, p.header c.streamId c.count m = some header ∧
      h.fractionalTime = header.fractionalTime := by
  obtain ⟨-, -, h', e', payload, hunpacks⟩ := frame_unpacks hframe
  cases hunpacks.unpacked.symm.trans hunpack
  have htime := (p.map_time_header c.streamId c.count m).trans hunpacks.time
  obtain ⟨header, hheader, hsame⟩ := Option.map_eq_some_iff.mp htime
  exact ⟨header, hheader, hsame.symm⟩

end Packing

/-! ## Offers that fail -/

namespace Channel

/-- The packet of a piece can be framed and is not above the limit of the link. -/
def Carries (c : Channel) (p : Packing) (m : Metadata) (samples : Nat) : Prop :=
  p.words m samples ≤ maxPacketWords ∧ 4 * p.words m samples ≤ c.link.maxFrame

variable {c c' : Channel} {p : Packing} {m : Metadata} {buffer : Bytes} {piece : Piece}

/-- An offer fails only for a packet that the link never carries. -/
theorem offer_error {e : StreamError} (hopen : c.link.receiverOpen = true)
    (h : c.offer p m buffer piece = some (c', .error e)) :
    c' = c ∧ ¬ c.Carries p m piece.samples := by
  simp only [offer, bind, Option.bind_eq_some_iff] at h
  obtain ⟨framed, hframe, h⟩ := h
  cases framed with
  | error e =>
    cases h
    have hlong := Packing.frame_error hframe
    exact ⟨rfl, fun hcarries => Nat.not_lt.mpr hcarries.1 hlong⟩
  | ok frame =>
    obtain ⟨-, hlength, -⟩ := Packing.frame_holds hframe
    by_cases hlong : c.link.maxFrame < frame.length
    · simp only [Link.send, if_pos hlong] at h
      cases h
      exact ⟨rfl, fun hcarries => Nat.not_lt.mpr hcarries.2 (hlength ▸ hlong)⟩
    · -- the link neither refuses the frame nor is it closed
      by_cases hfull : c.link.depth ≤ c.link.frames.length
      · simp [Link.send, hlong, hopen, hfull] at h
      · simp [Link.send, hlong, hopen, hfull] at h

theorem offer_carries {taken : Bool} (h : c.offer p m buffer piece = some (c', .ok taken)) :
    c.Carries p m piece.samples := by
  simp only [offer, bind, Option.bind_eq_some_iff] at h
  obtain ⟨framed, hframe, h⟩ := h
  cases framed with
  | error e => cases h
  | ok frame =>
    obtain ⟨hsmall, hlength, -⟩ := Packing.frame_holds hframe
    by_cases hlong : c.link.maxFrame < frame.length
    · simp [Link.send, hlong] at h
    · exact ⟨hsmall, hlength ▸ Nat.le_of_not_lt hlong⟩

end Channel
end SampleStream.Transmit
