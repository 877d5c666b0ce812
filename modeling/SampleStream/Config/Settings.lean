import SampleStream.Bytes
import SampleStream.Number.Real

/-!
# Settings

What streams need to know about the device and the link, with a default for
everything.
-/

namespace SampleStream

/-- The size of a frame where nothing else is said. -/
def defaultFrameSize : Nat := 8000

/-- Settings of a datagram link. -/
structure DatagramSettings where
  /-- Bytes that the system buffers on the way in. -/
  receiveBuffer : Nat := defaultFrameSize * 32 * 4
  /-- Bytes that the system buffers on the way out. -/
  sendBuffer : Nat := defaultFrameSize * 32
  /-- Bytes of the largest datagram. -/
  frameSize : Nat := defaultFrameSize
deriving DecidableEq, Repr

/-- The settings of streams. -/
structure Settings where
  /-- Samples of a packet, unless an option says otherwise. -/
  packetSamples : Nat := 364
  /-- Bytes of the largest frame received. -/
  receiveFrameSize : Nat := defaultFrameSize
  /-- Bytes of the largest frame sent. -/
  sendFrameSize : Nat := defaultFrameSize
  /-- Reports kept before the oldest is dropped. -/
  reportDepth : Nat := 1000
  /-- Rounds of dropping packets, while channels are brought to a common time,
  before that is given up. -/
  alignmentThreshold : Nat := 1000
  /-- Ticks of the device clock in a second. -/
  tickRate : Float := Real.ofNat 100000000
  byteOrder : ByteOrder := .big
  /-- The host value at which the wire format is at its peak. -/
  fullScale : Float := Real.ofNat 1
  datagram : DatagramSettings := {}

/-- By default a report can be kept. -/
theorem Settings.reportDepth_pos : 0 < ({} : Settings).reportDepth := by decide

end SampleStream
