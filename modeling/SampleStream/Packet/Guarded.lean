import SampleStream.Guarded
import SampleStream.Packet.Codec

/-!
# Unpacking packets, every access checked

The fields are read one after the other, from a position that moves on behind every
field that is present. Each word is a slice of the packet, and each difference is
checked.
-/

namespace SampleStream

/-- The word with index `k`, all of whose bytes have to be there. -/
def ByteOrder.wordIn (order : ByteOrder) (packet : Bytes) (k : Nat) : Guarded UInt32 := do
  let bytes ← Guarded.bounded (slice packet (4 * k) 4)
  return order.word bytes

namespace Header

/-- A field of one word at position `k`, if it is present, and the position behind it. -/
def fieldIn (order : ByteOrder) (packet : Bytes) (present : Bool) (k : Nat) :
    Guarded (Option UInt32 × Nat) :=
  if present then do
    let w ← order.wordIn packet k
    return (some w, k + 1)
  else return (none, k)

/-- A field of two words at position `k`, if it is present, and the position behind it. -/
def longFieldIn (order : ByteOrder) (packet : Bytes) (present : Bool) (k : Nat) :
    Guarded (Option UInt64 × Nat) :=
  if present then do
    let upper ← order.wordIn packet k
    let lower ← order.wordIn packet (k + 1)
    return (some (ofLongWords upper lower), k + 2)
  else return (none, k)

/-- The word at the end of a packet of `total` words, if it is a trailer. -/
def trailerIn (order : ByteOrder) (packet : Bytes) (present : Bool) (total : Nat) :
    Guarded (Option UInt32) :=
  if present then do
    let last ← Guarded.difference total 1
    let w ← order.wordIn packet last
    return some w
  else return none

/-- `Header.unpack`, every access checked. -/
def unpackGuarded (order : ByteOrder) (packet : Bytes) :
    Guarded (Except FramingError (Header × Extent)) :=
  let available := packet.length / 4
  if available = 0 then .ok (.error (.tooShort 0 1))
  else do
    let first ← order.wordIn packet 0
    let code := first.toNat / 2 ^ 28
    match ofClassCode? code with
    | none => return .error (.unsupportedType code)
    | some (packetClass, hasStream) =>
      let hasClass := flag first 27
      let hasTrailer := flag first 26
      let hasWhole := first.toNat / 2 ^ 22 % 4 != 0
      let hasFraction := first.toNat / 2 ^ 20 % 4 != 0
      let total := first.toNat % 2 ^ 16
      let headerWords := 1 + hasStream.toNat + 2 * hasClass.toNat + hasWhole.toNat
        + 2 * hasFraction.toNat
      if available < total ∨ total < headerWords + hasTrailer.toNat then
        return .error .badHeader
      else
        let (streamId, k) ← fieldIn order packet hasStream 1
        let (classId, k) ← longFieldIn order packet hasClass k
        let (wholeTime, k) ← fieldIn order packet hasWhole k
        let (fractionalTime, _) ← longFieldIn order packet hasFraction k
        let trailer ← trailerIn order packet hasTrailer total
        let rest ← Guarded.difference total headerWords
        let payload ← Guarded.difference rest hasTrailer.toNat
        return .ok (
          { packetClass
            count := UInt8.ofNat (first.toNat / 2 ^ 16 % 16)
            startOfBurst := flag first 25
            endOfBurst := flag first 24
            streamId, classId, wholeTime, fractionalTime, trailer },
          ⟨headerWords, payload, hasTrailer.toNat⟩)

end Header
end SampleStream
