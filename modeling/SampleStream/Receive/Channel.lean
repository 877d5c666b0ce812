import SampleStream.Link
import SampleStream.Packet.Codec
import SampleStream.Receive.Metadata
import SampleStream.Sample.Converter

/-!
# Channels of a receive stream

A channel takes packets off its link one at a time. A packet of samples is held
until all of its samples are handed out; anything else that comes, or does not
come, is a condition for the metadata.
-/

namespace SampleStream.Receive

/-- A packet of samples that is not yet handed out in full. -/
structure HeldPacket where
  header : Header
  payload : Bytes
  /-- Samples in the packet. -/
  samples : Nat
  /-- Samples handed out. -/
  cursor : Nat := 0
  time : Option Time
  /-- Packets are missing before this one, which is still to be told. -/
  outOfSequence : Bool

/-- Samples not yet handed out. -/
def HeldPacket.remaining (p : HeldPacket) : Nat := p.samples - p.cursor

/-- The packet with `count` samples more handed out. -/
def HeldPacket.advance (p : HeldPacket) (count : Nat) : HeldPacket :=
  { p with cursor := p.cursor + count, outOfSequence := false }

/-- Something else than samples that a channel met. -/
structure Condition where
  code : Code
  channel : Nat
  time : Option Time := none

/-- The metadata of a call that reports a condition. -/
def Condition.metadata (c : Condition) : Metadata :=
  { channel := c.channel, time := c.time, code := c.code }

/-- A channel: its link, its converter, the count of its last packet, and the
packet it holds. -/
structure Channel where
  link : Link
  converter : Sample.Converter
  lastCount : Option UInt8 := none
  held : Option HeldPacket := none

namespace Channel

/-- What came of asking a channel for a packet. -/
inductive Fetched where
  /-- A packet is held now; `gap` says that packets are missing before it. -/
  | packet (gap : Bool)
  | condition (c : Condition)

/-- The time of a packet, if it carries one. -/
def packetTime (h : Header) (tickRate : Float) : Checked (Option Time) :=
  match h.fractionalTime with
  | none => some none
  | some ticks => some <$> Timestamp.ofTicks ticks.toInt64.toInt tickRate

/-- The condition that a report packet is about: its low byte names one. -/
def reportCode (order : ByteOrder) (payload : Bytes) : Code :=
  if payload.length < 4 then .badPacket
  else (Code.ofNumber? ((order.wordAt payload 0).toNat % 256)).getD .badPacket

/-- The count that follows `count`. -/
def nextCount (count : UInt8) : UInt8 := (count + 1) &&& 0xf

/-- Whether packets are missing before one with this count. -/
def isGap (last : Option UInt8) (count : UInt8) : Bool :=
  last.any fun last => nextCount last != count

/-- Takes the next packet off the link. The device starts its count anew when it
reports an overflow. -/
def fetch (c : Channel) (index : Nat) (order : ByteOrder) (wireItem : Nat) (tickRate : Float) :
    Checked (Except LinkError (Channel × Fetched)) := do
  match c.link.recv with
  | .error e => return .error e
  | .ok none => return .ok (c, .condition { code := .timeout, channel := index })
  | .ok (some (frame, link)) =>
    let c := { c with link }
    match Header.unpack order frame with
    | .error _ => return .ok (c, .condition { code := .badPacket, channel := index })
    | .ok (h, extent) =>
      let time ← packetTime h tickRate
      let payload ← extent.payloadOf frame
      if h.packetClass = .context then
        let code := reportCode order payload
        let c := if code = .overflow then { c with lastCount := none } else c
        return .ok (c, .condition { code, channel := index, time })
      else
        let gap := isGap c.lastCount h.count
        let held : HeldPacket :=
          { header := h, payload, samples := payload.length / wireItem, time
            outOfSequence := gap }
        return .ok ({ c with lastCount := some h.count, held := some held }, .packet gap)

/-- Converts `count` samples of the packet held into `buffer`, from sample
`filled` on. -/
def convert (c : Channel) (buffer : Bytes) (filled count : Nat) : Checked Bytes :=
  match c.held with
  | none => some buffer
  | some p => c.converter.convert ⟨p.payload, p.cursor⟩ ⟨buffer, filled⟩ count

/-- The channel after `count` samples of its packet are handed out, and whether
the packet ends a burst if that uses it up. -/
def advance (c : Channel) (count : Nat) : Channel × Option Bool :=
  match c.held with
  | none => (c, none)
  | some p =>
    let p := p.advance count
    if p.remaining = 0 then ({ c with held := none }, some p.header.endOfBurst)
    else ({ c with held := some p }, none)

end Channel
end SampleStream.Receive
