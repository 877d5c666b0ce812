import SampleStream.Packet.Frame
import SampleStream.Report.Event
import SampleStream.Time.Timestamp

/-!
# Reports from the device

Beside the stream of samples the device sends reports: acknowledged bursts,
underflows, lost and late packets. A report travels as a context packet whose
first payload word holds the events; up to four more words are opaque.
-/

namespace SampleStream

/-- An event that the device reports. -/
structure Report where
  channel : Nat
  /-- Whether the packet carried a time. -/
  timed : Bool
  time : Time
  event : EventCode
  payload : Vector UInt32 4

namespace Report

/-! ## Reading -/

/-- The time of a tick field, of which the upper bit is a sign. Without a clock
rate every time is zero. -/
def timeOfField (field : Option UInt64) (rate : Float) : Checked Time :=
  if rate == 0 then some .zero
  else Timestamp.ofTicks (field.getD 0).toInt64.toInt rate

/-- The report in a packet that was parsed. Payload words that are missing are
zero; of the events only the low byte counts. -/
def ofPacket (order : ByteOrder) (h : Header) (payload : Bytes) (rate : Float)
    (channel : Nat) : Checked Report := do
  let time ← timeOfField h.fractionalTime rate
  let word (k : Nat) : UInt32 :=
    if 4 * (k + 1) ≤ payload.length then order.wordAt payload k else 0
  return {
    channel
    timed := h.fractionalTime.isSome
    time
    event := ⟨word 0 &&& 0xff⟩
    payload := Vector.ofFn fun k => word (k + 1) }

/-- The report in a frame, if there is one: frames that are no packets, packets
of samples and packets without payload hold none. -/
def ofFrame (order : ByteOrder) (frame : Bytes) (rate : Float) (channel : Nat) :
    Checked (Option Report) :=
  match Header.unpack order frame with
  | .error _ => some none
  | .ok (h, extent) =>
    if h.packetClass = .context ∧ extent.payload ≠ 0 then do
      let payload ← extent.payloadOf frame
      return some (← ofPacket order h payload rate channel)
    else some none

/-! ## Writing -/

/-- The words that follow the header: the events and the opaque words. -/
def words (r : Report) : List UInt32 := r.event.bits :: r.payload.toList

/-- The frame of a report about stream `sid`. A time before zero is written as
tick zero. -/
def toFrame (order : ByteOrder) (r : Report) (rate : Float) (sid : UInt32) :
    Checked (Except FramingError Bytes) := do
  let ticks ← if r.timed then some <$> r.time.toTicks rate else some none
  let h : Header := { Header.forContext sid with
    fractionalTime := ticks.map fun ticks => UInt64.ofNat ticks.toNat }
  h.frame order r.words.length fun _ => some (order.wordsBytes r.words)

end Report
end SampleStream
