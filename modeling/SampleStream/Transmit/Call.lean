import SampleStream.Transmit.Transmitter

/-!
# Sending samples

A call sends its pieces in order, each of them to every channel before the next.
It is over when a link has no room for a piece. Only the first piece carries the
time and the start of the burst, only the last one the end.
-/

namespace SampleStream.Transmitter
open Transmit

/-- The state after a call and its answer. -/
abbrev Answer (α : Type) := Transmitter × Except StreamError α

/-! ## One piece on all channels -/

/-- Offers a piece of each buffer to its channel, one channel after the other. A
link without room ends this, unless `regardless` is set. -/
def offerEach (p : Packing) (m : Metadata) (piece : Piece) (regardless : Bool) :
    List (Channel × Bytes) → Checked (List Channel × Except StreamError Bool)
  | [] => some ([], .ok true)
  | (c, buffer) :: rest => do
    match ← c.offer p m buffer piece with
    | (c, .error e) => return (c :: rest.map Prod.fst, .error e)
    | (c, .ok taken) =>
      if taken || regardless then
        let (cs, result) ← offerEach p m piece regardless rest
        return (c :: cs, result)
      else return (c :: rest.map Prod.fst, .ok false)

/-- Offers a piece of each buffer to all channels. -/
def offer (t : Transmitter) (m : Metadata) (buffers : List Bytes) (piece : Piece)
    (regardless : Bool) : Checked (Answer Bool) := do
  let (channels, result) ← offerEach t.packing m piece regardless (t.channels.zip buffers)
  return ({ t with channels }, result)

/-! ## All pieces of a call -/

/-- What goes with a piece of a call of `total` samples. -/
def pieceMetadata (m : Metadata) (total : Nat) (piece : Piece) : Metadata :=
  let first := piece.start == 0
  { time := if first then m.time else none
    startOfBurst := m.startOfBurst && first
    endOfBurst := m.endOfBurst && piece.start + piece.samples == total }

/-- Sends pieces until a link has no room, and says how many samples all links
took. -/
def sendPieces (m : Metadata) (buffers : List Bytes) (total : Nat) :
    List Piece → Transmitter → Checked (Answer Nat)
  | [], t => some (t, .ok total)
  | piece :: rest, t => do
    match ← t.offer (pieceMetadata m total piece) buffers piece false with
    | (t, .error e) => return (t, .error e)
    | (t, .ok false) => return (t, .ok piece.start)
    | (t, .ok true) => sendPieces m buffers total rest t

/-- Ends a burst without samples to send: a packet with one sample of zeros to
every channel, whether or not its link has room. -/
def endBurst (t : Transmitter) (m : Metadata) : Checked (Answer Nat) := do
  let zeros := List.replicate t.hostItem 0
  let buffers := t.channels.map fun _ => zeros
  match ← t.offer m buffers ⟨0, 1⟩ true with
  | (t, .error e) => return (t, .error e)
  | (t, .ok _) => return (t, .ok 0)

/-! ## Calls -/

/-- Sends `total` samples of each buffer. The answer is how many samples the links
took before one of them had no room. -/
def send (t : Transmitter) (buffers : List Bytes) (total : Nat) (m : Metadata) :
    Checked (Answer Nat) := do
  if buffers.length ≠ t.channels.length then
    return (t, .error (.channelCount t.channels.length buffers.length))
  let need ← mulSize total t.hostItem
  match buffers.find? fun buffer => decide (buffer.length < need) with
  | some buffer => return (t, .error (.bufferTooSmall need buffer.length))
  | none =>
    match m.time.filter fun time => time.before .zero with
    | some time => return (t, .error (.negativeTime time))
    | none =>
      if total = 0 then
        if m.endOfBurst then t.endBurst m else return (t, .ok 0)
      else sendPieces m buffers total (pieces t.packetSamples total) t

end SampleStream.Transmitter
