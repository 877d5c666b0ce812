import SampleStream.Config.Read

/-!
# Writing settings

Settings are written with every key, in one order, so that a file can be made
from them and changed by hand. Real numbers have a point, or are special values.
-/

namespace SampleStream

open Toml

/-- The text of a real number: the fewest digits that read back, in positional
notation and with at least one place after the point. -/
def Toml.realText (x : Float) : String :=
  match Real.value x with
  | .notANumber => "nan"
  | .infinite negative => if negative then "-inf" else "inf"
  | .finite negative significand exponent =>
    let digits :=
      if significand = 0 then "0" else (Decimal.shortest significand exponent).positional
    let pointed := if digits.toList.contains '.' then digits else digits ++ ".0"
    if negative then "-" ++ pointed else pointed

namespace Settings

/-- A key and its value. -/
def line (key value : String) : String := key ++ " = " ++ value ++ "\n"

/-- The settings as a text. -/
def text (s : Settings) : String :=
  String.join [
    line "samples_per_packet" (toString s.packetSamples),
    line "recv_frame_size" (toString s.receiveFrameSize),
    line "send_frame_size" (toString s.sendFrameSize),
    line "async_queue_depth" (toString s.reportDepth),
    line "alignment_failure_threshold" (toString s.alignmentThreshold),
    line "tick_rate" (Toml.realText s.tickRate),
    line "byte_order" ("\"" ++ s.byteOrder.suffix ++ "\""),
    line "fullscale" (Toml.realText s.fullScale),
    "\n[udp]\n",
    line "recv_buff_size" (toString s.datagram.receiveBuffer),
    line "send_buff_size" (toString s.datagram.sendBuffer),
    line "frame_size" (toString s.datagram.frameSize)]

end Settings
end SampleStream
