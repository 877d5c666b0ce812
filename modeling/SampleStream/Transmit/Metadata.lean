import SampleStream.Time.Timestamp

/-!
# Metadata of send calls

What goes with the samples of a send call: the time of the first of them, and
whether they begin or end a burst.
-/

namespace SampleStream.Transmit

/-- What goes with the samples of a call. -/
structure Metadata where
  /-- When to send the first sample; at once if nothing is said. -/
  time : Option Time := none
  startOfBurst : Bool := false
  endOfBurst : Bool := false

/-- The start of a burst at a time. -/
def Metadata.timedBurst (time : Time) : Metadata := { time := some time, startOfBurst := true }

/-- The end of the current burst. -/
def Metadata.burstEnd : Metadata := { endOfBurst := true }

end SampleStream.Transmit
