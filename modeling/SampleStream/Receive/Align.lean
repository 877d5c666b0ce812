import SampleStream.Receive.Receiver

/-!
# Bringing channels to a common time

Samples are handed out of all channels together, so the packets held have to
carry the same time. Channels that hold older packets drop them and take the
next one, round by round, until the times agree or too many rounds were needed.
Packets without a time agree with every other.
-/

namespace SampleStream.Receiver
open Receive

/-- What came of asking for packets: nothing in the way, a condition, or a link
that is closed. -/
abbrev Outcome := Except StreamError (Option Condition)

/-- Takes the next packet of one channel, shows its marker, and restarts the
device after an overflow. A closed link is worth a warning. -/
def fetch (r : Receiver) (index : Nat) (c : Channel) : Checked (Receiver × Outcome) := do
  match ← c.fetch index r.order r.wireItem r.tickRate with
  | .error cause =>
    return ({ r with warnings := r.warnings ++ [.linkClosed index cause] }, .error .linkClosed)
  | .ok (c, fetched) =>
    let r := { r with channels := r.channels.set index c }
    match fetched with
    | .packet gap =>
      let shown := if gap then [Marker.dropped] else []
      return ({ r with markers := r.markers ++ shown }, .ok none)
    | .condition found =>
      if found.code = .overflow then
        return ({ r with markers := r.markers ++ [Marker.overflow] }.restart, .ok (some found))
      else return (r, .ok (some found))

/-- Makes the channels `indices` hold a packet each, one after the other, up to
the first thing in the way. -/
def fill (r : Receiver) : List Nat → Checked (Receiver × Outcome)
  | [] => some (r, .ok none)
  | index :: rest =>
    match r.channels[index]? with
    | none => r.fill rest
    | some c =>
      if c.held.isSome then r.fill rest
      else do
        match ← r.fetch index c with
        | (r, .ok none) => r.fill rest
        | stopped => return stopped

/-- The newest time among the packets held. -/
def newest (r : Receiver) : Option UInt64 :=
  (r.held.filterMap fun p => p.header.fractionalTime).max?

/-- Whether a packet is older than a time. -/
def isOlder (time : UInt64) (p : HeldPacket) : Bool :=
  p.header.fractionalTime.any (· < time)

/-- The stream without the packets that `drop` picks. -/
def dropHeld (r : Receiver) (drop : HeldPacket → Bool) : Receiver :=
  { r with
    channels := r.channels.map fun c =>
      if c.held.any drop then { c with held := none } else c }

/-- The stream that gives up bringing its channels to a common time: nothing is
held any more. -/
def giveUp (r : Receiver) : Receiver :=
  let r := r.dropHeld fun _ => true
  { r with warnings := r.warnings ++ [.misaligned r.channels.length (r.alignmentThreshold + 1)] }

/-- Brings all channels to a common time, with `rounds` rounds of dropping older
packets left. After one round more everything held is dropped. -/
def alignWithin (r : Receiver) (rounds : Nat) : Checked (Receiver × Outcome) := do
  match ← r.fill (List.range r.channels.length) with
  | (r, .ok none) =>
    match r.newest with
    | none => return (r, .ok none)
    | some time =>
      if r.held.any (isOlder time) then
        let r := r.dropHeld (isOlder time)
        match rounds with
        | 0 =>
          return (r.giveUp, .ok (some { code := .alignment, channel := 0 }))
        | rounds + 1 => r.alignWithin rounds
      else return (r, .ok none)
  | stopped => return stopped

/-- Brings all channels to a common time. -/
def align (r : Receiver) : Checked (Receiver × Outcome) := r.alignWithin r.alignmentThreshold

end SampleStream.Receiver
