import SampleStream.Packet.Error
import SampleStream.Packet.Header

/-!
# Packing and unpacking packets

`Header.pack` writes the header and trailer words of a packet into a buffer and
touches nothing else; `Header.unpack` reads them back and says where the payload
lies.
-/

namespace SampleStream

namespace Header

/-! ## Packing -/

/-- The extent of a packet with this header and `payloadWords` of payload. -/
def extent (h : Header) (payloadWords : Nat) : Extent :=
  ⟨h.size, payloadWords, h.trailer.isSome.toNat⟩

/-- Writes the header and trailer of a packet with `payloadWords` of payload to
the front of `buffer`. The payload belongs right after the header and is left as
it is. -/
def pack (order : ByteOrder) (h : Header) (payloadWords : Nat) (buffer : Bytes) :
    Checked (Except FramingError Bytes) := do
  let extent := h.extent payloadWords
  let total ← fitSize extent.total
  if maxPacketWords < total then
    return .error .badHeader
  else if buffer.length < 4 * total then
    return .error (.tooShort (buffer.length / 4) total)
  else
    let whole := h.completed
    let headed := splice buffer 0
      (order.wordsBytes (whole.firstWord total :: whole.fieldWords))
    return .ok <| match h.trailer with
      | none => headed
      | some trailer => splice headed (4 * (total - 1)) (order.wordBytes trailer)

/-! ## Unpacking -/

/-- The number of two words, upper word first. -/
def ofLongWords (upper lower : UInt32) : UInt64 :=
  upper.toUInt64 <<< 32 ||| lower.toUInt64

/-- A bit of a word. -/
def flag (w : UInt32) (bit : Nat) : Bool := w.toNat / 2 ^ bit % 2 == 1

/-- The class that a class code names, and whether a stream identifier follows. -/
def ofClassCode? : Nat → Option (PacketClass × Bool)
  | 0 => some (.data, false)
  | 1 => some (.data, true)
  | 2 => some (.extension, false)
  | 3 => some (.extension, true)
  | 4 | 5 => some (.context, true)
  | _ => none

/-- Reads the header at the front of `packet`, which is everything that the link
delivered. The size field has to leave room for the header and the trailer and
must not reach past the whole words of `packet`. -/
def unpack (order : ByteOrder) (packet : Bytes) : Except FramingError (Header × Extent) :=
  let available := packet.length / 4
  if available = 0 then .error (.tooShort 0 1)
  else
    let first := order.wordAt packet 0
    let code := first.toNat / 2 ^ 28
    match ofClassCode? code with
    | none => .error (.unsupportedType code)
    | some (packetClass, hasStream) =>
      let hasClass := flag first 27
      let hasTrailer := flag first 26
      let hasWhole := first.toNat / 2 ^ 22 % 4 != 0
      let hasFraction := first.toNat / 2 ^ 20 % 4 != 0
      let total := first.toNat % 2 ^ 16
      let classAt := 1 + hasStream.toNat
      let wholeAt := classAt + 2 * hasClass.toNat
      let fractionAt := wholeAt + hasWhole.toNat
      let headerWords := fractionAt + 2 * hasFraction.toNat
      let word := order.wordAt packet
      if available < total ∨ total < headerWords + hasTrailer.toNat then .error .badHeader
      else .ok (
        { packetClass
          count := UInt8.ofNat (first.toNat / 2 ^ 16 % 16)
          startOfBurst := flag first 25
          endOfBurst := flag first 24
          streamId := if hasStream then some (word 1) else none
          classId :=
            if hasClass then some (ofLongWords (word classAt) (word (classAt + 1))) else none
          wholeTime := if hasWhole then some (word wholeAt) else none
          fractionalTime :=
            if hasFraction then
              some (ofLongWords (word fractionAt) (word (fractionAt + 1)))
            else none
          trailer := if hasTrailer then some (word (total - 1)) else none },
        ⟨headerWords, total - headerWords - hasTrailer.toNat, hasTrailer.toNat⟩)

end Header

/-- The payload of a packet whose parts are known. -/
def Extent.payloadOf (e : Extent) (packet : Bytes) : Checked Bytes :=
  slice packet (4 * e.header) (4 * e.payload)

end SampleStream
