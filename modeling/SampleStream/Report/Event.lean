import SampleStream.Text.Hex
import SampleStream.Marker

/-!
# Event codes

A report from the device names the events it is about in a set of bits. Bits
without a meaning are kept.
-/

namespace SampleStream

/-- A set of events. -/
structure EventCode where
  bits : UInt32
deriving DecidableEq, Repr

namespace EventCode

/-- No event. -/
def none : EventCode := ⟨0⟩

/-- The events that have a name, by bit. -/
def names : List (UInt32 × String) :=
  [(0x1, "burst_ack"),
   (0x2, "underflow"),
   (0x4, "seq_error"),
   (0x8, "time_error"),
   (0x10, "underflow_in_packet"),
   (0x20, "seq_error_in_burst"),
   (0x40, "user_payload")]

/-- Whether one of the events in `mask` is in the set. -/
def meets (e : EventCode) (mask : UInt32) : Bool := e.bits &&& mask != 0

/-- The names of the events in the set; the bits themselves when none has a
name. -/
def text (e : EventCode) : String :=
  match names.filter fun (bit, _) => e.meets bit with
  | [] => Text.hex e.bits.toNat
  | named => "|".intercalate (named.map Prod.snd)

/-- The marker of a set of events: an underflow comes before a missed packet,
that before a late one. -/
def marker (e : EventCode) : Option Marker :=
  if e.meets (0x2 ||| 0x10) then some .underflow
  else if e.meets (0x4 ||| 0x20) then some .sequence
  else if e.meets 0x8 then some .late
  else Option.none

end EventCode
end SampleStream
