import SampleStream.Packet.Codec

/-!
# Building frames

A frame is a packet in a buffer of its own size. The header is packed first, so
that a packet that cannot be framed is refused before its payload is made.
-/

namespace SampleStream.Header

/-- A frame with a payload of `payloadWords` zero words. -/
def blank (order : ByteOrder) (h : Header) (payloadWords : Nat) :
    Checked (Except FramingError Bytes) := do
  let total ← fitSize (h.extent payloadWords).total
  let size ← mulSize total 4
  let size ← fitStorage size
  -- no buffer is made for what is no packet
  if maxPacketWords < total then return .error .badHeader
  h.pack order payloadWords (List.replicate size 0)

/-- A frame whose payload is what `fill` makes of its zero bytes. -/
def frame (order : ByteOrder) (h : Header) (payloadWords : Nat)
    (fill : Bytes → Checked Bytes) : Checked (Except FramingError Bytes) := do
  match ← h.blank order payloadWords with
  | .error e => return .error e
  | .ok packet =>
    let payload ← fill (List.replicate (4 * payloadWords) 0)
    return .ok (splice packet (4 * h.size) payload)

end SampleStream.Header
