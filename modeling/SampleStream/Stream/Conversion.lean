import SampleStream.Config.Settings
import SampleStream.Packet.Header
import SampleStream.Stream.Options

/-!
# The conversion of a stream

Which conversion a stream uses follows from its options and the settings: the
byte order makes the wire tag, the tags of both sides and the priority find the
method, and each tag has an item size.
-/

namespace SampleStream

/-- The way of the samples of a stream. -/
inductive Direction where
  /-- From the wire to the host. -/
  | receive
  /-- From the host to the wire. -/
  | send
deriving DecidableEq, Repr

/-- The conversion of a stream and the bytes of a sample on either side. -/
structure Conversion where
  order : ByteOrder
  wireTag : String
  method : Sample.Method
  wireItem : Nat
  hostItem : Nat

namespace StreamOptions

/-- The result of looking at the options, as part of the set-up. -/
def setup {α : Type} (result : Except OptionError α) : Except SetupError α :=
  result.mapError fun cause => .stream (.invalidOption cause)

/-- The result of looking into the registry, as part of the set-up. -/
def lookup {α : Type} (result : Except Sample.LookupError α) : Except SetupError α :=
  result.mapError .lookup

/-- Finds the conversion that the options ask for. -/
def conversion (o : StreamOptions) (settings : Settings) (direction : Direction) :
    Except SetupError Conversion := do
  let order ← setup (o.byteOrder settings.byteOrder)
  let wireTag := Sample.wireTag o.wireFormat order
  let id : Sample.ConversionId := match direction with
    | .receive => .single wireTag o.hostFormat
    | .send => .single o.hostFormat wireTag
  let priority ← setup o.priority
  let method ← lookup (Sample.standardRegistry.find id priority)
  let wireItem ← lookup (Sample.standardRegistry.itemSize wireTag)
  let hostItem ← lookup (Sample.standardRegistry.itemSize o.hostFormat)
  return { order, wireTag, method, wireItem, hostItem }

/-- One link is needed for each channel, and at least one channel. -/
def checkLinks {α : Type} (o : StreamOptions) (links : List α) : Except SetupError Unit :=
  if links.length ≠ o.channels.length ∨ links = [] then
    .error (.stream (.channelCount o.channels.length links.length))
  else .ok ()

end StreamOptions

/-- The samples of `item` bytes for which a frame has room beside the longest
header. -/
def samplesPerFrame (frameSize item : Nat) : Nat :=
  (frameSize - maxHeaderWords * 4) / item

end SampleStream
