/-!
# Status markers

One letter for each condition that a running stream meets and that somebody
watching it wants to see at once.
-/

namespace SampleStream

/-- A condition worth a letter on the console. -/
inductive Marker where
  /-- The device ran out of room for samples. -/
  | overflow
  /-- A packet was lost on the link. -/
  | dropped
  /-- The device ran out of samples to send. -/
  | underflow
  /-- The device missed a packet. -/
  | sequence
  /-- A packet reached the device too late. -/
  | late
deriving DecidableEq, Repr

/-- The letter of a marker. -/
def Marker.letter : Marker → Char
  | overflow => 'O'
  | dropped => 'D'
  | underflow => 'U'
  | sequence => 'S'
  | late => 'L'

/-- The letters of a sequence of markers. -/
def Marker.letters (ms : List Marker) : String := String.ofList (ms.map Marker.letter)

end SampleStream
