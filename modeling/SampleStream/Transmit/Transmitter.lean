import SampleStream.Report.Worker
import SampleStream.Stream.Conversion
import SampleStream.Transmit.Channel

/-!
# Transmit streams

A transmit stream cuts the samples of a call into packets and offers each of
them to all channels in turn. A worker collects what the device reports. A
packet holds as many samples as were asked for, as far as every link takes its
frame, and a number of samples that fills whole words.
-/

namespace SampleStream

open Transmit in
/-- A transmit stream. -/
structure Transmitter where
  channels : List Channel
  packing : Packing
  /-- Bytes of a sample on the host. -/
  hostItem : Nat
  /-- Samples of the largest packet. -/
  packetSamples : Nat
  worker : ReportWorker

namespace Transmitter
open Transmit

/-! ## Setting up -/

/-- The least number of samples that fills whole words. -/
def wholeWords (wireItem : Nat) : Nat := 4 / Nat.gcd 4 wireItem

/-- The largest frame that the settings allow and every link takes. -/
def frameSize (settings : Settings) (links : List Link) : Nat :=
  links.foldl (fun size l => min size l.maxFrame) settings.sendFrameSize

/-- What the options and settings come to. -/
structure Plan where
  conversion : Conversion
  scalar : Float
  packetSamples : Nat

/-- Works out the conversion and the size of the packets. -/
def plan (o : StreamOptions) (settings : Settings) (links : List Link) :
    Except SetupError Plan := do
  o.checkLinks links
  let c ← o.conversion settings .send
  let fullScale ← StreamOptions.setup (o.fullScale settings.fullScale)
  let frameSize := frameSize settings links
  let asked ← StreamOptions.setup (o.size? "spp")
  let room := min (asked.getD settings.packetSamples) (samplesPerFrame frameSize c.wireItem)
  let samples := room / wholeWords c.wireItem * wholeWords c.wireItem
  if samples = 0 then StreamOptions.setup (.error (.noRoom frameSize c.wireTag))
  if settings.reportDepth = 0 then StreamOptions.setup (.error .noReportQueue)
  return ⟨c, Sample.peak o.wireFormat / fullScale, samples⟩

/-- A transmit stream with one link for each channel. The reports come in byte
order and at the tick rate of the settings. -/
def create (o : StreamOptions) (settings : Settings) (links : List Link) :
    Checked (Except SetupError Transmitter) :=
  match plan o settings links with
  | .error e => some (.error e)
  | .ok ⟨c, scalar, packetSamples⟩ => do
    let queue ← BoundedQueue.create settings.reportDepth
    let converter := (Sample.Converter.start c.method).setScalar scalar
    return .ok {
      channels := (links.zip o.channels).map fun (link, channel) =>
        { link, converter, streamId := UInt32.ofNat channel }
      packing := { order := c.order, wireItem := c.wireItem, tickRate := settings.tickRate }
      hostItem := c.hostItem
      packetSamples
      worker := { order := c.order, rate := settings.tickRate, channel := 0, queue } }

/-! ## Links -/

/-- The stream with the link of a channel changed, as the far end does. -/
def onLink (t : Transmitter) (index : Nat) (f : Link → Link) : Transmitter :=
  { t with channels := t.channels.modify index fun c => { c with link := f c.link } }

/-- The stream with another tick rate for what it sends. -/
def setTickRate (t : Transmitter) (rate : Float) : Transmitter :=
  { t with packing := { t.packing with tickRate := rate } }

/-! ## Reports -/

/-- The oldest report not yet taken. -/
def takeReport (t : Transmitter) : Transmitter × Option Report :=
  match t.worker.queue.pop? with
  | none => (t, none)
  | some (report, queue) => ({ t with worker := { t.worker with queue } }, some report)

end Transmitter
end SampleStream
