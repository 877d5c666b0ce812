import SampleStream.Bytes

/-!
# Packet headers

The fields of a packet header and where they stand:

    31:28  packet class (0, 1 data; 2, 3 extension; 4, 5 context)
    27     class identifier present
    26     trailer present
    25     start of burst
    24     end of burst
    23:22  whole-second timestamp present
    21:20  fractional timestamp present
    19:16  packet count modulo 16
    15:0   packet size in words, header and trailer included

The first word is followed by the words of the fields that are present: stream
identifier, class identifier, whole-second timestamp, fractional timestamp; a
field of 64 bits has its upper word first. Then come the payload and the
trailer word.
-/

namespace SampleStream

/-- What a packet carries. -/
inductive PacketClass where
  /-- Samples. -/
  | data
  /-- Data of another kind. -/
  | extension
  /-- Reports about the stream. -/
  | context
deriving DecidableEq, Repr, Inhabited

/-- The fields of a packet header. Only the low four bits of the count travel. -/
structure Header where
  packetClass : PacketClass := .data
  count : UInt8 := 0
  startOfBurst : Bool := false
  endOfBurst : Bool := false
  streamId : Option UInt32 := none
  classId : Option UInt64 := none
  wholeTime : Option UInt32 := none
  fractionalTime : Option UInt64 := none
  trailer : Option UInt32 := none
deriving DecidableEq, Repr

/-- The parts of a packet, in words. -/
structure Extent where
  header : Nat
  payload : Nat
  trailer : Nat
deriving DecidableEq, Repr

/-- The words of the whole packet. -/
def Extent.total (e : Extent) : Nat := e.header + e.payload + e.trailer

/-- The largest size that the size field holds. -/
def maxPacketWords : Nat := 0xffff

/-- The words of the longest header: every field present. -/
def maxHeaderWords : Nat := 7

namespace Header

/-- A header of a packet with samples of stream `sid`. -/
def forData (sid : UInt32) : Header := { packetClass := .data, streamId := some sid }

/-- A header of a report about stream `sid`. -/
def forContext (sid : UInt32) : Header := { packetClass := .context, streamId := some sid }

/-- The header with the stream identifier that a context packet always has. -/
def completed (h : Header) : Header :=
  match h.packetClass with
  | .context => { h with streamId := some (h.streamId.getD 0) }
  | _ => h

/-! ## The first word -/

/-- The class field. -/
def classCode (h : Header) : Nat :=
  match h.packetClass with
  | .data => if h.streamId.isSome then 1 else 0
  | .extension => if h.streamId.isSome then 3 else 2
  | .context => 4

/-- The first word of a packet of `size` words. -/
def firstWord (h : Header) (size : Nat) : UInt32 :=
  UInt32.ofNat <|
    h.classCode * 2 ^ 28
      + h.classId.isSome.toNat * 2 ^ 27
      + h.trailer.isSome.toNat * 2 ^ 26
      + h.startOfBurst.toNat * 2 ^ 25
      + h.endOfBurst.toNat * 2 ^ 24
      + 3 * h.wholeTime.isSome.toNat * 2 ^ 22
      + h.fractionalTime.isSome.toNat * 2 ^ 20
      + h.count.toNat % 16 * 2 ^ 16
      + size

/-! ## The words of the fields -/

/-- The two words of a 64-bit field, upper word first. -/
def longWords (n : UInt64) : List UInt32 := [(n >>> 32).toUInt32, n.toUInt32]

/-- The words after the first one. -/
def fieldWords (h : Header) : List UInt32 :=
  h.streamId.toList
    ++ (h.classId.map longWords).getD []
    ++ h.wholeTime.toList
    ++ (h.fractionalTime.map longWords).getD []

/-- The words of the header that `completed` describes. -/
def size (h : Header) : Nat := 1 + h.completed.fieldWords.length

end Header
end SampleStream
