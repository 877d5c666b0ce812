import SampleStream.Packet.Codec

/-!
# Packet records

The record that callers of the codec fill in and get back. Its presence flags stand
apart from the values, so a value may be left over in a field that is absent, and
the sizes that packing and unpacking report are fields of the record itself.
`PacketRecord.header` is what of a record travels.
-/

namespace SampleStream

/-- The fields of a packet and the sizes of its parts. -/
structure PacketRecord where
  packetClass : PacketClass := .data
  /-- Read by packing, written by unpacking. -/
  payloadWords : Nat := 0
  /-- Written by unpacking. -/
  payloadBytes : Nat := 0
  /-- Written by both. -/
  headerWords : Nat := 0
  /-- Written by both. -/
  packetWords : Nat := 0
  count : UInt8 := 0
  startOfBurst : Bool := false
  endOfBurst : Bool := false
  hasStreamId : Bool := false
  streamId : UInt32 := 0
  hasClassId : Bool := false
  classId : UInt64 := 0
  hasWholeTime : Bool := false
  wholeTime : UInt32 := 0
  hasFractionalTime : Bool := false
  fractionalTime : UInt64 := 0
  hasTrailer : Bool := false
  trailer : UInt32 := 0
deriving DecidableEq, Repr

namespace PacketRecord

/-! ## Sizes -/

/-- Whether a stream identifier travels. -/
def carriesStreamId (r : PacketRecord) : Bool :=
  r.hasStreamId || r.packetClass == .context

/-- The words of the header that the flags ask for. -/
def impliedHeaderWords (r : PacketRecord) : Nat :=
  1 + r.carriesStreamId.toNat + 2 * r.hasClassId.toNat + r.hasWholeTime.toNat
    + 2 * r.hasFractionalTime.toNat

/-- The words of the whole packet that the record asks for. -/
def impliedWords (r : PacketRecord) : Nat :=
  r.impliedHeaderWords + r.payloadWords + r.hasTrailer.toNat

/-! ## Records and headers -/

/-- A value that counts only when its flag is set. -/
def present {α : Type} (flag : Bool) (value : α) : Option α :=
  if flag then some value else none

/-- The fields that travel. -/
def header (r : PacketRecord) : Header where
  packetClass := r.packetClass
  count := r.count
  startOfBurst := r.startOfBurst
  endOfBurst := r.endOfBurst
  streamId := present r.carriesStreamId r.streamId
  classId := present r.hasClassId r.classId
  wholeTime := present r.hasWholeTime r.wholeTime
  fractionalTime := present r.hasFractionalTime r.fractionalTime
  trailer := present r.hasTrailer r.trailer

/-- The record of a packet that was read; a field that is absent is zero. -/
def ofHeader (h : Header) (e : Extent) : PacketRecord where
  packetClass := h.packetClass
  payloadWords := e.payload
  payloadBytes := 4 * e.payload
  headerWords := e.header
  packetWords := e.total
  count := h.count
  startOfBurst := h.startOfBurst
  endOfBurst := h.endOfBurst
  hasStreamId := h.streamId.isSome
  streamId := h.streamId.getD 0
  hasClassId := h.classId.isSome
  classId := h.classId.getD 0
  hasWholeTime := h.wholeTime.isSome
  wholeTime := h.wholeTime.getD 0
  hasFractionalTime := h.fractionalTime.isSome
  fractionalTime := h.fractionalTime.getD 0
  hasTrailer := h.trailer.isSome
  trailer := h.trailer.getD 0

/-! ## Packing and unpacking -/

/-- Writes the header and the trailer into `buffer`. The answer comes with the
record and the buffer as the call leaves them: the flag of the stream identifier is
set in every context packet, the sizes only when the packet was written. -/
def pack (order : ByteOrder) (r : PacketRecord) (buffer : Bytes) :
    Checked (PacketRecord × Bytes × Except FramingError Unit) := do
  let r := { r with hasStreamId := r.carriesStreamId }
  match ← r.header.pack order r.payloadWords buffer with
  | .error e => return (r, buffer, .error e)
  | .ok packet =>
    let extent := r.header.extent r.payloadWords
    return ({ r with headerWords := extent.header, packetWords := extent.total }, packet, .ok ())

/-- Reads the record at the front of `packet`. -/
def unpack (order : ByteOrder) (packet : Bytes) : Except FramingError PacketRecord :=
  (Header.unpack order packet).map fun (h, e) => ofHeader h e

/-- The bytes of the payload. -/
def payload (r : PacketRecord) (packet : Bytes) : Checked Bytes :=
  slice packet (4 * r.headerWords) r.payloadBytes

end PacketRecord
end SampleStream
