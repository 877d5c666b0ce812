import SampleStream.Packet.Error
import SampleStream.Sample.Registry
import SampleStream.Time.Timestamp

/-!
# Errors of streams

Why a stream could not be set up, and why a call on it was refused. What happens
to a running stream in the ordinary course of things (time-outs, lost packets,
reports from the device) is no error and is told in the metadata of the call.
-/

namespace SampleStream

/-- Causes for which options of a stream are refused. -/
inductive OptionError where
  /-- A segment of an option text is no `key=value`. -/
  | notAPair (segment : String)
  /-- The value of an option is none of the kind asked for. -/
  | badValue (value key : String)
  | unknownByteOrder (value : String)
  /-- No sample of the format fits a frame. -/
  | noRoom (frameSize : Nat) (format : String)
  /-- Reports would have no place in the queue. -/
  | noReportQueue
deriving DecidableEq, Repr

/-- The text of a cause. -/
def OptionError.message : OptionError → String
  | notAPair segment => "expected key=value, got '" ++ segment ++ "'"
  | badValue value key => "bad value '" ++ value ++ "' for '" ++ key ++ "'"
  | unknownByteOrder value => "unknown byte order '" ++ value ++ "'"
  | noRoom frameSize format =>
    "frame size " ++ toString frameSize ++ " leaves no room for " ++ format ++ " samples"
  | noReportQueue => "async_queue_depth must be at least 1"

/-- Causes for which a call on a stream is refused. -/
inductive StreamError where
  | invalidOption (cause : OptionError)
  /-- One link or buffer is needed for each channel. -/
  | channelCount (expected given : Nat)
  /-- A buffer does not hold the samples of the call. -/
  | bufferTooSmall (need held : Nat)
  | linkClosed
  /-- Samples cannot be sent at a time before zero. -/
  | negativeTime (time : Time)
  | framing (cause : FramingError)

/-- The text of a stream error. -/
def StreamError.message : StreamError → String
  | invalidOption cause => "Invalid stream arguments: " ++ cause.message
  | channelCount expected given =>
    "Channel count mismatch: expected " ++ toString expected ++ ", got " ++ toString given
  | bufferTooSmall need held =>
    "Buffer too small: need " ++ toString need ++ " bytes, have " ++ toString held
  | linkClosed => "Transport closed"
  | negativeTime time => "Send time " ++ time.text ++ " is before zero"
  | framing cause => "Framing failed: " ++ cause.message

/-- Causes for which a stream is not set up. -/
inductive SetupError where
  | lookup (cause : Sample.LookupError)
  | stream (cause : StreamError)

/-- The text of a set-up error. -/
def SetupError.message : SetupError → String
  | lookup cause => "Convert error: " ++ cause.message
  | stream cause => "Stream error: " ++ cause.message

end SampleStream
