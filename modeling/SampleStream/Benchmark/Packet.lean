import SampleStream.Packet.Frame

/-!
# Benchmark packets

A benchmark packet carries its sequence number in the first payload word and in
the packet count, and after it words that count up from the sequence number
modulo `2 ^ 32`. A receiver can therefore tell an intact packet from a damaged
one without knowing which packet was sent.
-/

namespace SampleStream.Benchmark

/-- What the packets of a benchmark look like. -/
structure Plan where
  /-- Words after the sequence number. -/
  payloadWords : Nat
  order : ByteOrder := .big
  streamId : UInt32 := 0x1000

namespace Plan

/-- The payload of the packet with sequence number `seq`. -/
def words (p : Plan) (seq : UInt32) : List UInt32 :=
  seq :: (List.range p.payloadWords).map fun i => seq + UInt32.ofNat i

/-- The header of the packet with sequence number `seq`. -/
def header (p : Plan) (seq : UInt32) : Header :=
  { Header.forData p.streamId with count := (seq &&& 0xf).toUInt8 }

/-- The packet with sequence number `seq`. -/
def packet (p : Plan) (seq : UInt32) : Checked (Except FramingError Bytes) := do
  let payloadWords ← addSize p.payloadWords 1
  (p.header seq).frame p.order payloadWords fun _ => some (p.order.wordsBytes (p.words seq))

/-- Whether the words of `payload` count up from `seq`. -/
def countsUp (p : Plan) (seq : UInt32) (payload : Bytes) : Bool :=
  ((chunks 4 p.payloadWords payload).zip (List.range p.payloadWords)).all fun (bytes, i) =>
    p.order.word bytes == seq + UInt32.ofNat i

/-- The sequence number of a packet, if the packet is intact. -/
def check (p : Plan) (packet : Bytes) : Option UInt32 :=
  match Header.unpack p.order packet with
  | .error _ => none
  | .ok (h, extent) => do
    if extent.payload ≠ p.payloadWords + 1 then none
    let payload ← extent.payloadOf packet
    let seq := p.order.wordAt payload 0
    if (seq &&& 0xf).toUInt8 ≠ h.count then none
    if p.countsUp seq (payload.drop 4) then some seq else none

end Plan
end SampleStream.Benchmark
