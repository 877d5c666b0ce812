import SampleStream.Text.Hex

/-!
# Framing errors

Why a packet could not be framed or parsed.
-/

namespace SampleStream

/-- Causes of a framing failure. -/
inductive FramingError where
  /-- The sizes of the packet do not fit each other or the size field. -/
  | badHeader
  /-- The buffer holds fewer words than the packet has. -/
  | tooShort (present need : Nat)
  /-- The type field names no known packet class. -/
  | unsupportedType (code : Nat)
deriving DecidableEq, Repr

/-- The text of a framing error. -/
def FramingError.message : FramingError → String
  | badHeader => "Bad VRT header or packet fragment"
  | tooShort present need =>
    "Packet too short: have " ++ toString present ++ " words, need " ++ toString need
  | unsupportedType code => "Unsupported packet type: " ++ Text.hex code

end SampleStream
