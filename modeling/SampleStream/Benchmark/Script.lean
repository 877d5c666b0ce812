import SampleStream.Benchmark.Exchange

/-!
# Benchmarks by script

A benchmark on links that do what a script says. The link for sending takes a packet, has
no room for it or fails, until the time of the benchmark is up; the link for receiving
brings a frame, brings nothing for a while or fails. The sender may be done at any time,
so that a script says for each time-out of the receiver whether it was.
-/

namespace SampleStream.Benchmark

/-- What comes of listening on a link. -/
inductive Event where
  | frame (bytes : Bytes)
  /-- Nothing came for a while. -/
  | nothing (senderDone : Bool)
  | failure
deriving DecidableEq, Repr

/-! ## The sending side -/

/-- The sender after the link did not fail. -/
def Sender.after (s : Sender) : Offer → Sender
  | .taken => s.accepted
  | .refused => s.refused

/-- The sender up to the first failure of the link, which is `none` in the script, or to the
end of its time. Every turn of its loop builds a packet and offers it to the link; the
packets are told with what became of them. -/
def Sender.run (p : Plan) : Sender → List (Option Offer) → Sender × List (Bytes × Option Offer)
  | s, [] => (s, [])
  | s, outcome :: rest =>
    match p.packet s.sequence with
    | some (.ok packet) =>
      match outcome with
      | none => (s, [(packet, none)])
      | some offer =>
        let (last, log) := Sender.run p (s.after offer) rest
        (last, (packet, some offer) :: log)
    | _ => (s, [])

/-! ## The receiving side -/

/-- The receiver after one event. -/
def Receiver.hear (p : Plan) (r : Receiver) : Event → Receiver
  | .frame bytes => r.take p bytes
  | .nothing senderDone => r.timedOut.looked senderDone
  | .failure => r.failed

/-- The receiver up to the event at which it stops. -/
def Receiver.run (p : Plan) : Receiver → List Event → Receiver
  | r, [] => r
  | r, event :: rest =>
    let r := r.hear p event
    if r.listening = .stopped then r else Receiver.run p r rest

/-! ## Both sides -/

/-- A benchmark by script: its report, and the packets that were offered to the link with
what became of them. It is not begun when a packet cannot be framed. -/
def run (p : Plan) (outcomes : List (Option Offer)) (events : List Event) (elapsed : Elapsed) :
    Checked (Except FramingError (Report × List (Bytes × Option Offer))) := do
  match ← p.packet 0 with
  | .error e => return .error e
  | .ok _ =>
    let (sender, log) := Sender.run p {} outcomes
    return .ok (reportOf sender (Receiver.run p {} events) elapsed, log)

end SampleStream.Benchmark
