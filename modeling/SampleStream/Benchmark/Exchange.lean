import SampleStream.Benchmark.Packet
import SampleStream.Benchmark.Report

/-!
# Exchanging benchmark packets

A sender pushes packets into a link and a receiver drains it. The sender goes on
to the next packet when the link took the last one, and offers the same packet
again when the link had no room. The receiver checks every packet; it stops when
nothing came for a while and the sender says that it is done, or when the link
fails.

`Sender` and `Receiver` say what an event does to each side. `Exchange` puts the
two on a link that loses nothing, a step at a time and in any order; `playBack`
runs them on recorded outcomes instead.
-/

namespace SampleStream.Benchmark

/-! ## The sending side -/

/-- The state of the sender: the sequence number of the packet to send, and its
counts. -/
structure Sender where
  sequence : UInt32 := 0
  packets : Nat := 0
  timeouts : Nat := 0
deriving DecidableEq, Repr

/-- The link took the packet. -/
def Sender.accepted (s : Sender) : Sender :=
  { s with sequence := s.sequence + 1, packets := s.packets + 1 }

/-- The link had no room for the packet. -/
def Sender.refused (s : Sender) : Sender := { s with timeouts := s.timeouts + 1 }

/-! ## The receiving side -/

/-- What the receiver is at. -/
inductive Listening where
  /-- Waiting for a packet. -/
  | waiting
  /-- Nothing came for a while; about to look whether the sender is done. -/
  | looking
  | stopped
deriving DecidableEq, Repr

/-- The state of the receiver: the sequence number it expects, if it has seen an
intact packet, and its counts. -/
structure Receiver where
  listening : Listening := .waiting
  expected : Option UInt32 := none
  packets : Nat := 0
  bytes : Nat := 0
  timeouts : Nat := 0
  sequenceErrors : Nat := 0
  dataErrors : Nat := 0
deriving DecidableEq, Repr

/-- A packet came. A damaged one leaves the expectation as it is; an intact one
with another sequence number sets it anew. -/
def Receiver.take (p : Plan) (r : Receiver) (packet : Bytes) : Receiver :=
  let r := { r with packets := r.packets + 1, bytes := r.bytes + packet.length }
  match p.check packet with
  | none => { r with dataErrors := r.dataErrors + 1 }
  | some seq =>
    let surprising := r.expected.any (· != seq)
    { r with
      sequenceErrors := r.sequenceErrors + surprising.toNat
      expected := some (seq + 1) }

/-- Nothing came for a while. -/
def Receiver.timedOut (r : Receiver) : Receiver :=
  { r with timeouts := r.timeouts + 1, listening := .looking }

/-- The receiver looked whether the sender is done. -/
def Receiver.looked (senderDone : Bool) (r : Receiver) : Receiver :=
  { r with listening := if senderDone then .stopped else .waiting }

/-- The link failed. -/
def Receiver.failed (r : Receiver) : Receiver := { r with listening := .stopped }

/-- The counts of both sides in one report. -/
def reportOf (s : Sender) (r : Receiver) (elapsed : Elapsed) : Report :=
  { sent := s.packets
    received := r.packets
    sendTimeouts := s.timeouts
    receiveTimeouts := r.timeouts
    sequenceErrors := r.sequenceErrors
    dataErrors := r.dataErrors
    receivedBytes := r.bytes
    elapsed }

/-! ## A link that loses nothing -/

/-- Both sides and the packets in flight between them, oldest first. -/
structure Exchange where
  sender : Sender := {}
  receiver : Receiver := {}
  inFlight : List Bytes := []
  /-- The sender has sent its last packet. -/
  senderDone : Bool := false

/-- A step of one side. -/
inductive ExchangeMove where
  /-- The link takes the next packet. -/
  | send
  /-- The link has no room for the next packet. -/
  | refuse
  /-- The sender says that it is done. -/
  | finish
  /-- The receiver takes the oldest packet in flight. -/
  | receive
  /-- The receiver waits in vain, which it does only when nothing is in flight. -/
  | timeOut
  /-- The receiver looks whether the sender is done. -/
  | look
deriving DecidableEq, Repr

namespace Exchange

/-- The state after a move, if the move can be made. -/
def move? (p : Plan) (x : Exchange) : ExchangeMove → Option Exchange
  | .send => do
    if x.senderDone then none
    match ← p.packet x.sender.sequence with
    | .error _ => none
    | .ok packet =>
      some { x with sender := x.sender.accepted, inFlight := x.inFlight ++ [packet] }
  | .refuse => if x.senderDone then none else some { x with sender := x.sender.refused }
  | .finish => if x.senderDone then none else some { x with senderDone := true }
  | .receive =>
    match x.receiver.listening, x.inFlight with
    | .waiting, packet :: rest =>
      some { x with receiver := x.receiver.take p packet, inFlight := rest }
    | _, _ => none
  | .timeOut =>
    match x.receiver.listening, x.inFlight with
    | .waiting, [] => some { x with receiver := x.receiver.timedOut }
    | _, _ => none
  | .look =>
    if x.receiver.listening = .looking then
      some { x with receiver := x.receiver.looked x.senderDone }
    else none

/-- The states that a benchmark of `p` can be in. -/
inductive Reachable (p : Plan) : Exchange → Prop where
  | start : Reachable p {}
  | step {x x' : Exchange} (move : ExchangeMove) (h : Reachable p x)
      (h' : x.move? p move = some x') : Reachable p x'

/-- Whether both sides have ended. -/
def ended (x : Exchange) : Bool := x.senderDone && x.receiver.listening == .stopped

end Exchange

/-! ## Recorded outcomes -/

/-- What the link did with a packet offered to it. -/
inductive Offer where
  | taken
  | refused
deriving DecidableEq, Repr

/-- The sender on a link that fails after the recorded outcomes, and the packets
it offered, the last of them being the one that failed. -/
def Sender.playBack (p : Plan) : List Offer → Sender → Array Bytes → Sender × List Bytes
  | offers, s, offered =>
    match p.packet s.sequence with
    | some (.ok packet) =>
      let offered := offered.push packet
      match offers with
      | [] => (s, offered.toList)
      | .taken :: rest => playBack p rest s.accepted offered
      | .refused :: rest => playBack p rest s.refused offered
    | _ => (s, offered.toList)

/-- The receiver on recorded frames, with `none` where none came in time, after
which the link fails. The sender is not done before. -/
def Receiver.playBack (p : Plan) (script : List (Option Bytes)) : Receiver :=
  let event (r : Receiver) : Option Bytes → Receiver
    | some frame => r.take p frame
    | none => r.timedOut.looked false
  (script.foldl event {}).failed

/-- A benchmark on recorded outcomes of both sides: its report and the packets
that were offered to the link. It is not begun when a packet cannot be framed. -/
def playBack (p : Plan) (offers : List Offer) (script : List (Option Bytes)) :
    Checked (Except FramingError (Report × List Bytes)) := do
  match ← p.packet 0 with
  | .error e => return .error e
  | .ok _ =>
    let (sender, offered) := Sender.playBack p offers {} #[]
    return .ok (reportOf sender (Receiver.playBack p script) ⟨0, 0⟩, offered)

end SampleStream.Benchmark
