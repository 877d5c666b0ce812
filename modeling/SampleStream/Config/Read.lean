import SampleStream.Config.Settings
import SampleStream.Toml.Document

/-!
# Reading settings

Settings are read from a document. Keys that are missing leave their defaults,
keys without a meaning are passed over, and a key with a value of the wrong kind
makes the whole document unfit.
-/

namespace SampleStream

open Toml

/-- Why there are no settings. -/
inductive SettingsError where
  /-- The file cannot be read. -/
  | unreadable
  /-- The text is no document, or not one of settings. -/
  | malformed
deriving DecidableEq, Repr

namespace ReadSettings

/-! ## Values -/

/-- A value as a size. -/
def size : Node → Option Nat
  | .scalar (.integer z) => if 0 ≤ z then some z.toNat else none
  | _ => none

/-- A value as a real number. An integer is one, too. -/
def number : Node → Option Float
  | .scalar (.integer z) => some (Real.ofInt z)
  | .scalar (.real x) => some x
  | _ => none

/-- Whether a value is an empty array or table. -/
def isEmpty : Node → Bool
  | .array [] | .table _ [] | .tables [] => true
  | _ => false

/-- A value as a byte order: its suffix, or a table with that one key and nothing
under it. -/
def byteOrder : Node → Option ByteOrder
  | .scalar (.text s) => ByteOrder.ofSuffix? s
  | .table _ [(name, content)] => if isEmpty content then ByteOrder.ofSuffix? name else none
  | _ => none

/-- The value of a key as `read` understands it, or the default if the key is
missing. -/
def field {α : Type} (entries : Entries) (key : String) (read : Node → Option α)
    (default : α) : Option α :=
  match entries.lookup key with
  | none => some default
  | some x => read x

/-- The value at a position, likewise. -/
def item {α : Type} (items : List Node) (k : Nat) (read : Node → Option α) (default : α) :
    Option α :=
  match items[k]? with
  | none => some default
  | some x => read x

/-! ## Settings -/

/-- A value as settings of a datagram link: a table of them, or an array with as
many of them as there are, in order. A moment says nothing of them. -/
def datagram (x : Node) : Option DatagramSettings := do
  let d : DatagramSettings := {}
  match x with
  | .table _ entries =>
    return {
      receiveBuffer := ← field entries "recv_buff_size" size d.receiveBuffer
      sendBuffer := ← field entries "send_buff_size" size d.sendBuffer
      frameSize := ← field entries "frame_size" size d.frameSize }
  | .array items =>
    return {
      receiveBuffer := ← item items 0 size d.receiveBuffer
      sendBuffer := ← item items 1 size d.sendBuffer
      frameSize := ← item items 2 size d.frameSize }
  | .scalar .moment => return d
  | _ => none

/-- The settings that a document says, with defaults for the others. -/
def settings (entries : Entries) : Option Settings := do
  let d : Settings := {}
  return {
    packetSamples := ← field entries "samples_per_packet" size d.packetSamples
    receiveFrameSize := ← field entries "recv_frame_size" size d.receiveFrameSize
    sendFrameSize := ← field entries "send_frame_size" size d.sendFrameSize
    reportDepth := ← field entries "async_queue_depth" size d.reportDepth
    alignmentThreshold :=
      ← field entries "alignment_failure_threshold" size d.alignmentThreshold
    tickRate := ← field entries "tick_rate" number d.tickRate
    byteOrder := ← field entries "byte_order" byteOrder d.byteOrder
    fullScale := ← field entries "fullscale" number d.fullScale
    datagram := ← field entries "udp" datagram d.datagram }

end ReadSettings

namespace Settings

/-- The settings that a text spells. -/
def ofText (text : String) : Except SettingsError Settings :=
  match document? text >>= ReadSettings.settings with
  | some s => .ok s
  | none => .error .malformed

/-- The settings of a file, of which the content is given if it can be read. -/
def ofFile : Option String → Except SettingsError Settings
  | some text => ofText text
  | none => .error .unreadable

/-- The settings of the file where settings are kept; it need not be there. -/
def ofDefaultFile : Option String → Except SettingsError Settings
  | some text => ofText text
  | none => .ok {}

end Settings
end SampleStream
