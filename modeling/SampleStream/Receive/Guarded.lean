import SampleStream.Packet.Guarded
import SampleStream.Receive.Call
import SampleStream.Sample.Guarded

/-!
# Receiving, every access checked

The call of a receive stream once more, with every slice, difference and count on the
way checked: unpacking frames, taking payloads, counting packets, dividing payloads
into samples, converting and moving on in the packets held. Times are kept apart, as
their own arithmetic may leave its range.
-/

namespace SampleStream.Receive

/-! ## Packets held -/

/-- `HeldPacket.remaining`, checked. -/
def HeldPacket.remainingGuarded (p : HeldPacket) : Guarded Nat :=
  Guarded.difference p.samples p.cursor

/-- `HeldPacket.advance`, checked. -/
def HeldPacket.advanceGuarded (p : HeldPacket) (count : Nat) : Guarded HeldPacket := do
  let cursor ← Guarded.bounded (addSize p.cursor count)
  return { p with cursor, outOfSequence := false }

/-! ## Channels -/

namespace Channel

/-- `nextCount`, checked: the sum has to be a byte. -/
def nextCountGuarded (count : UInt8) : Guarded UInt8 :=
  if count.toNat + 1 < 256 then .ok ((count + 1) &&& 0xf) else .error .bounds

/-- `isGap`, checked. -/
def isGapGuarded (last : Option UInt8) (count : UInt8) : Guarded Bool :=
  match last with
  | none => return false
  | some last => do
    let next ← nextCountGuarded last
    return next != count

/-- `reportCode`, checked. -/
def reportCodeGuarded (order : ByteOrder) (payload : Bytes) : Guarded Code :=
  if payload.length < 4 then return .badPacket
  else do
    let w ← order.wordIn payload 0
    return (Code.ofNumber? (w.toNat % 256)).getD .badPacket

/-- `Channel.fetch`, checked. -/
def fetchGuarded (c : Channel) (index : Nat) (order : ByteOrder) (wireItem : Nat)
    (tickRate : Float) : Guarded (Except LinkError (Channel × Fetched)) :=
  match c.link.recv with
  | .error e => return .error e
  | .ok none => return .ok (c, .condition { code := .timeout, channel := index })
  | .ok (some (frame, link)) => do
    let c := { c with link }
    match ← Header.unpackGuarded order frame with
    | .error _ => return .ok (c, .condition { code := .badPacket, channel := index })
    | .ok (h, extent) =>
      let time ← Guarded.timed (packetTime h tickRate)
      let payload ← Guarded.bounded (extent.payloadOf frame)
      if h.packetClass = .context then
        let code ← reportCodeGuarded order payload
        let c := if code = .overflow then { c with lastCount := none } else c
        return .ok (c, .condition { code, channel := index, time })
      else
        let gap ← isGapGuarded c.lastCount h.count
        let samples ← Guarded.quotient payload.length wireItem
        let held : HeldPacket := { header := h, payload, samples, time, outOfSequence := gap }
        return .ok ({ c with lastCount := some h.count, held := some held }, .packet gap)

/-- `Channel.convert`, checked. -/
def convertGuarded (c : Channel) (buffer : Bytes) (filled count : Nat) : Guarded Bytes :=
  match c.held with
  | none => return buffer
  | some p => c.converter.convertGuarded ⟨p.payload, p.cursor⟩ ⟨buffer, filled⟩ count

/-- `Channel.advance`, checked. -/
def advanceGuarded (c : Channel) (count : Nat) : Guarded (Channel × Option Bool) :=
  match c.held with
  | none => return (c, none)
  | some p => do
    let p ← p.advanceGuarded count
    let left ← p.remainingGuarded
    if left = 0 then return ({ c with held := none }, some p.header.endOfBurst)
    else return ({ c with held := some p }, none)

end Channel
end SampleStream.Receive

namespace SampleStream.Receiver
open Receive

/-! ## Getting packets together -/

/-- `Receiver.fetch`, checked. -/
def fetchGuarded (r : Receiver) (index : Nat) (c : Channel) : Guarded (Receiver × Outcome) := do
  match ← c.fetchGuarded index r.order r.wireItem r.tickRate with
  | .error cause =>
    return ({ r with warnings := r.warnings ++ [.linkClosed index cause] }, .error .linkClosed)
  | .ok (c, fetched) =>
    let r := { r with channels := r.channels.set index c }
    match fetched with
    | .packet gap =>
      let shown := if gap then [Marker.dropped] else []
      return ({ r with markers := r.markers ++ shown }, .ok none)
    | .condition found =>
      if found.code = .overflow then
        return ({ r with markers := r.markers ++ [Marker.overflow] }.restart, .ok (some found))
      else return (r, .ok (some found))

/-- `Receiver.fill`, checked. -/
def fillGuarded (r : Receiver) : List Nat → Guarded (Receiver × Outcome)
  | [] => return (r, .ok none)
  | index :: rest =>
    match r.channels[index]? with
    | none => r.fillGuarded rest
    | some c =>
      if c.held.isSome then r.fillGuarded rest
      else do
        match ← r.fetchGuarded index c with
        | (r, .ok none) => r.fillGuarded rest
        | stopped => return stopped

/-- `Receiver.alignWithin`, checked. -/
def alignWithinGuarded (r : Receiver) (rounds : Nat) : Guarded (Receiver × Outcome) := do
  match ← r.fillGuarded (List.range r.channels.length) with
  | (r, .ok none) =>
    match r.newest with
    | none => return (r, .ok none)
    | some time =>
      if r.held.any (isOlder time) then
        let r := r.dropHeld (isOlder time)
        match rounds with
        | 0 => return (r.giveUp, .ok (some { code := .alignment, channel := 0 }))
        | rounds + 1 => r.alignWithinGuarded rounds
      else return (r, .ok none)
  | stopped => return stopped

/-- `Receiver.ready`, checked. -/
def readyGuarded (r : Receiver) : Guarded (Receiver × Outcome) :=
  if r.channels.any (·.held.isNone) then r.alignWithinGuarded r.alignmentThreshold
  else return (r, .ok none)

/-! ## A round -/

/-- `Receiver.convert`, checked. -/
def convertGuarded (r : Receiver) (buffers : List Bytes) (filled count : Nat) :
    Guarded (List Bytes) :=
  (r.channels.zip buffers).mapM fun (c, buffer) => c.convertGuarded buffer filled count

/-- `Receiver.advance`, checked. -/
def advanceGuarded (r : Receiver) (count : Nat) : Guarded (Receiver × Option Bool) := do
  let moved ← r.channels.mapM fun c => c.advanceGuarded count
  return ({ r with channels := moved.map Prod.fst }, (moved.filterMap Prod.snd).getLast?)

/-- `Receiver.handOut`, checked. -/
def handOutGuarded (r : Receiver) (wanted : Nat) (onePacket : Bool) (got : Received) :
    Guarded Round := do
  let left ← r.held.mapM HeldPacket.remainingGuarded
  match left.min? with
  | none => return .done (r, .ok got)
  | some remaining =>
    let gap := r.held.any HeldPacket.outOfSequence
    if 0 < got.samples ∧ gap then return .done (r, .ok got)
    let room ← Guarded.difference wanted got.samples
    let count := min remaining room
    let metadata ← Guarded.timed (r.describeFirst got)
    let buffers ← r.convertGuarded got.buffers got.samples count
    let samples ← Guarded.bounded (addSize got.samples count)
    let (r, used) ← r.advanceGuarded count
    match used with
    | some true =>
      return .done (r.endBurst,
        .ok { samples, metadata := { metadata with endOfBurst := true }, buffers })
    | used =>
      let metadata := if used.isSome then metadata else { metadata with moreFragments := true }
      let got : Received := { samples, metadata, buffers }
      if onePacket ∨ gap ∨ samples = wanted then return .done (r, .ok got)
      else return .more r got

/-- `Receiver.round`, checked. -/
def roundGuarded (r : Receiver) (wanted : Nat) (onePacket : Bool) (got : Received) :
    Guarded Round := do
  match ← r.readyGuarded with
  | (r, .error e) => return .done (r, .error e)
  | (r, .ok (some condition)) => return .done (r.report condition got)
  | (r, .ok none) => r.handOutGuarded wanted onePacket got

/-- `Receiver.collect`, checked. -/
def collectGuarded (wanted : Nat) (onePacket : Bool) :
    Nat → Receiver → Received → Guarded Answer
  | 0, r, got => return (r, .ok got)
  | rounds + 1, r, got => do
    match ← r.roundGuarded wanted onePacket got with
    | .done answer => return answer
    | .more r got => collectGuarded wanted onePacket rounds r got

/-! ## Calls -/

/-- `Receiver.recv`, checked. -/
def recvGuarded (r : Receiver) (buffers : List Bytes) (wanted : Nat) (onePacket : Bool) :
    Guarded Answer :=
  match r.pending with
  | some metadata => return ({ r with pending := none }, .ok { metadata, buffers })
  | none => do
    if buffers.length ≠ r.channels.length then
      return (r, .error (.channelCount r.channels.length buffers.length))
    let need ← Guarded.bounded (mulSize wanted r.hostItem)
    match buffers.find? fun buffer => decide (buffer.length < need) with
    | some buffer => return (r, .error (.bufferTooSmall need buffer.length))
    | none => collectGuarded wanted onePacket (r.backlog + 1) r { buffers }

end SampleStream.Receiver
