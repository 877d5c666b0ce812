import SampleStream.Time.Timestamp

/-!
# Stream commands

What the device is told about a receive stream: when to start, how much to send,
and when to stop.
-/

namespace SampleStream

/-- How a receive stream is started or stopped. -/
inductive StreamMode where
  | startContinuous
  | stopContinuous
  /-- A number of samples, and then the burst is over. -/
  | samplesAndDone
  /-- A number of samples, after which another command is expected. -/
  | samplesAndMore
deriving DecidableEq, Repr

/-- A command to the device: at once, or at a time. -/
structure StreamCommand where
  mode : StreamMode
  samples : Nat := 0
  now : Bool := true
  time : Time := .zero

/-- The command, to be obeyed at a time. -/
def StreamCommand.at (c : StreamCommand) (time : Time) : StreamCommand :=
  { c with now := false, time }

end SampleStream
