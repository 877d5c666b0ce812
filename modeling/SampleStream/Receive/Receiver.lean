import SampleStream.Marker
import SampleStream.Receive.Channel
import SampleStream.Stream.Command
import SampleStream.Stream.Conversion

/-!
# Receive streams

A receive stream has a channel for each link, and between calls remembers how
the device was told to stream and which condition is still to be reported. The
markers shown, the warnings written and the commands issued are kept as logs,
oldest first.
-/

namespace SampleStream.Receive

/-- How the device was told to stream. -/
inductive Mode where
  | idle
  | continuous
  | finite
deriving DecidableEq, Repr

/-- The mode that a command leads to. -/
def Mode.after : StreamMode → Mode
  | .startContinuous => continuous
  | .stopContinuous => idle
  | .samplesAndDone | .samplesAndMore => finite

/-- A command handed to a device channel. -/
structure Issued where
  deviceChannel : Nat
  command : StreamCommand

/-- What is written to the log as a warning. -/
inductive Warning where
  /-- The channels did not come to a common time in so many rounds. -/
  | misaligned (channels rounds : Nat)
  /-- The link of a channel is closed. -/
  | linkClosed (channel : Nat) (cause : LinkError)
deriving DecidableEq, Repr

/-- The text of a warning. -/
def Warning.message : Warning → String
  | misaligned channels rounds =>
    "Failed to align " ++ toString channels ++ " channels after " ++ toString rounds ++ " attempts"
  | linkClosed channel cause =>
    "RX transport for channel " ++ toString channel ++ " closed: " ++ cause.message

end SampleStream.Receive

namespace SampleStream

open Receive in
/-- A receive stream. -/
structure Receiver where
  channels : List Channel
  deviceChannels : List Nat
  order : ByteOrder
  /-- Bytes of a sample on the wire. -/
  wireItem : Nat
  /-- Bytes of a sample on the host. -/
  hostItem : Nat
  /-- Samples of the largest packet. -/
  packetSamples : Nat
  tickRate : Float
  /-- Samples in a second, by which the later parts of a packet are timed; zero
  leaves them at the time of the packet. -/
  sampleRate : Float
  alignmentThreshold : Nat
  /-- What the next call reports. -/
  pending : Option Metadata := none
  /-- Whether commands reach the device. -/
  issuing : Bool := false
  mode : Mode := .idle
  markers : List Marker := []
  warnings : List Warning := []
  issued : List Issued := []

namespace Receiver
open Receive

/-! ## Setting up -/

/-- A receive stream with one link for each channel. -/
def create (o : StreamOptions) (settings : Settings) (links : List Link) :
    Except SetupError Receiver := do
  o.checkLinks links
  let c ← o.conversion settings .receive
  let fullScale ← StreamOptions.setup (o.fullScale settings.fullScale)
  let converter :=
    (Sample.Converter.start c.method).setScalar (fullScale / Sample.peak o.wireFormat)
  let asked ← StreamOptions.setup (o.size? "spp")
  let sampleRate ← StreamOptions.setup (o.real? "samp_rate")
  return {
    channels := links.map fun link => { link, converter }
    deviceChannels := o.channels
    order := c.order
    wireItem := c.wireItem
    hostItem := c.hostItem
    packetSamples := min (asked.getD settings.packetSamples)
      (samplesPerFrame settings.receiveFrameSize c.wireItem)
    tickRate := settings.tickRate
    sampleRate := sampleRate.getD (Real.ofNat 0)
    alignmentThreshold := settings.alignmentThreshold }

/-! ## Links -/

/-- The stream with the link of a channel changed, as the far end does. -/
def onLink (r : Receiver) (index : Nat) (f : Link → Link) : Receiver :=
  { r with channels := r.channels.modify index fun c => { c with link := f c.link } }

/-! ## Commands -/

/-- Hands a command to every device channel, if commands reach the device. -/
def issue (r : Receiver) (command : StreamCommand) : Receiver :=
  if r.issuing then
    { r with issued := r.issued ++ r.deviceChannels.map fun channel => ⟨channel, command⟩ }
  else r

/-- Issues a command and remembers how the device streams from now on. -/
def command (r : Receiver) (command : StreamCommand) : Receiver :=
  { r with mode := Mode.after command.mode }.issue command

/-- Starts a continuous stream anew after an overflow. -/
def restart (r : Receiver) : Receiver :=
  if r.mode = .continuous then r.issue { mode := .startContinuous } else r

/-! ## Packets held -/

/-- The packets that the channels hold. -/
def held (r : Receiver) : List HeldPacket := r.channels.filterMap Channel.held

/-- Frames in flight and packets held, on all channels. -/
def backlog (r : Receiver) : Nat :=
  (r.channels.map fun c => c.link.frames.length + c.held.toList.length).sum

end Receiver
end SampleStream
