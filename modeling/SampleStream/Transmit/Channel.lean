import SampleStream.Link
import SampleStream.Packet.Frame
import SampleStream.Sample.Converter
import SampleStream.Stream.Error
import SampleStream.Transmit.Metadata

/-!
# Channels of a transmit stream

A channel cuts packets of samples out of a host buffer and offers them to its
link. Packets are counted when the link takes them, so that one that is offered
again has the same count.
-/

namespace SampleStream.Transmit

/-- A channel: its link, its converter, its stream identifier, and the count of
its next packet. -/
structure Channel where
  link : Link
  converter : Sample.Converter
  streamId : UInt32
  count : UInt8 := 0

/-- A piece of a call that fits a packet: the position of its first sample, and
how many samples it has. -/
structure Piece where
  start : Nat
  samples : Nat
deriving DecidableEq, Repr

/-- Cuts `total` samples into pieces of `size`, the last of which may be
shorter. -/
def pieces (size total : Nat) : List Piece :=
  (List.range ((total + size - 1) / size)).map fun k =>
    ⟨k * size, min size (total - k * size)⟩

/-- How the packets of a stream are made. -/
structure Packing where
  order : ByteOrder
  /-- Bytes of a sample on the wire. -/
  wireItem : Nat
  tickRate : Float

namespace Packing

/-- Words that `samples` samples fill, the last of them perhaps in part. -/
def payloadWords (p : Packing) (samples : Nat) : Nat := (samples * p.wireItem + 3) / 4

/-- The header of a packet. -/
def header (p : Packing) (streamId : UInt32) (count : UInt8) (m : Metadata) :
    Checked Header := do
  let ticks ← m.time.mapM fun time => time.toTicks p.tickRate
  return { Header.forData streamId with
    count
    startOfBurst := m.startOfBurst
    endOfBurst := m.endOfBurst
    fractionalTime := ticks.map fun ticks => (Int64.ofInt ticks).toUInt64 }

/-- The frame of a piece of `buffer`. -/
def frame (p : Packing) (c : Channel) (m : Metadata) (buffer : Bytes) (piece : Piece) :
    Checked (Except FramingError Bytes) := do
  let h ← p.header c.streamId c.count m
  h.frame p.order (p.payloadWords piece.samples) fun zeros =>
    c.converter.convert ⟨buffer, piece.start⟩ ⟨zeros, 0⟩ piece.samples

end Packing

/-- Offers a piece of `buffer` to the link, and says whether the link took it. -/
def Channel.offer (c : Channel) (p : Packing) (m : Metadata) (buffer : Bytes) (piece : Piece) :
    Checked (Channel × Except StreamError Bool) := do
  match ← p.frame c m buffer piece with
  | .error e => return (c, .error (.framing e))
  | .ok frame =>
    match c.link.send frame with
    | .error _ => return (c, .error .linkClosed)
    | .ok none => return (c, .ok false)
    | .ok (some link) => return ({ c with link, count := (c.count + 1) &&& 0xf }, .ok true)

end SampleStream.Transmit
