import SampleStream.Receive.Align

/-!
# Receiving samples

A call hands out samples of the packets held, fetching more as it needs them. It
ends when it has as many samples as were asked for, when a packet has to be told
apart from those before it (the end of a burst, a gap in the sequence), or when
something other than samples comes. What comes after samples were converted is
kept for the next call, so that a call reports one thing at a time.
-/

namespace SampleStream.Receiver
open Receive

/-- What a call returns: a number of samples in each buffer, what is to be told
of them, and the buffers. -/
structure Received where
  samples : Nat := 0
  metadata : Metadata := {}
  buffers : List Bytes

/-- The state after a call and its answer. -/
abbrev Answer := Receiver × Except StreamError Received

/-! ## The parts of a call -/

/-- Reports a condition: at once when there are no samples yet, else by the next
call. That nothing came in time is not worth another call. -/
def report (r : Receiver) (c : Condition) (got : Received) : Answer :=
  if got.samples = 0 then (r, .ok { got with metadata := c.metadata })
  else if c.code = .timeout then (r, .ok got)
  else ({ r with pending := some c.metadata }, .ok got)

/-- Time of the first sample of `p` not yet handed out. -/
def timeOf (r : Receiver) (p : HeldPacket) (time : Time) : Checked Time :=
  if 0 < r.sampleRate ∧ 0 < p.cursor then
    time.addSeconds (Real.ofNat p.cursor / r.sampleRate)
  else some time

/-- Metadata of samples that begin in the packets held; the first channel stands
for all. -/
def describe (r : Receiver) (m : Metadata) : Checked Metadata := do
  match r.channels.head?.bind Channel.held with
  | none => return m
  | some p =>
    let gap := r.held.any HeldPacket.outOfSequence
    let m := { m with
      channel := 0
      fragmentOffset := p.cursor
      startOfBurst := p.header.startOfBurst && p.cursor == 0
      outOfSequence := gap
      code := if gap then .overflow else m.code }
    match p.time with
    | none => return m
    | some time => return { m with time := some (← r.timeOf p time) }

/-- Metadata of a call that goes on to hand out samples. The first of them are
described. -/
def describeFirst (r : Receiver) (got : Received) : Checked Metadata :=
  if got.samples = 0 then r.describe got.metadata else some got.metadata

/-- Converts `count` samples of every channel into its buffer, from sample
`filled` on. -/
def convert (r : Receiver) (buffers : List Bytes) (filled count : Nat) : Checked (List Bytes) :=
  (r.channels.zip buffers).mapM fun (c, buffer) => c.convert buffer filled count

/-- The stream after `count` samples of every channel are handed out. If that
uses packets up, the last of them says whether the burst is over. -/
def advance (r : Receiver) (count : Nat) : Receiver × Option Bool :=
  let moved := r.channels.map fun c => c.advance count
  ({ r with channels := moved.map Prod.fst }, (moved.filterMap Prod.snd).getLast?)

/-- The end of a burst ends a finite stream. -/
def endBurst (r : Receiver) : Receiver :=
  if r.mode = .finite then { r with mode := .idle } else r

/-- Makes every channel hold a packet, if one does not. -/
def ready (r : Receiver) : Checked (Receiver × Outcome) :=
  if r.channels.any (·.held.isNone) then r.align else some (r, .ok none)

/-! ## A round -/

/-- What is left to do after a round. -/
inductive Round where
  /-- The call is over. -/
  | done (answer : Answer)
  /-- More samples are wanted. -/
  | more (r : Receiver) (got : Received)

/-- Hands out what the packets held have in common, as far as it is wanted and
belongs together. -/
def handOut (r : Receiver) (wanted : Nat) (onePacket : Bool) (got : Received) :
    Checked Round := do
  match (r.held.map HeldPacket.remaining).min? with
  | none => return .done (r, .ok got)
  | some remaining =>
    let gap := r.held.any HeldPacket.outOfSequence
    -- a gap is reported at the start of a call
    if 0 < got.samples ∧ gap then return .done (r, .ok got)
    let count := min remaining (wanted - got.samples)
    let metadata ← r.describeFirst got
    let buffers ← r.convert got.buffers got.samples count
    let (r, used) := r.advance count
    let samples := got.samples + count
    match used with
    | some true =>
      return .done (r.endBurst,
        .ok { samples, metadata := { metadata with endOfBurst := true }, buffers })
    | used =>
      let metadata := if used.isSome then metadata else { metadata with moreFragments := true }
      let got : Received := { samples, metadata, buffers }
      if onePacket ∨ gap ∨ samples = wanted then return .done (r, .ok got)
      else return .more r got

/-- One round of a call: packets for all channels, and the samples they have in
common. -/
def round (r : Receiver) (wanted : Nat) (onePacket : Bool) (got : Received) :
    Checked Round := do
  match ← r.ready with
  | (r, .error e) => return .done (r, .error e)
  | (r, .ok (some condition)) => return .done (r.report condition got)
  | (r, .ok none) => r.handOut wanted onePacket got

/-- At most `rounds` rounds of a call. -/
def collect (wanted : Nat) (onePacket : Bool) : Nat → Receiver → Received → Checked Answer
  | 0, r, got => some (r, .ok got)
  | rounds + 1, r, got => do
    match ← r.round wanted onePacket got with
    | .done answer => return answer
    | .more r got => collect wanted onePacket rounds r got

/-! ## Calls -/

/-- Receives up to `wanted` samples of every channel into `buffers`; with
`onePacket` only samples of one packet. Every round but the last uses up a
packet, of which no more come during the call than the backlog has. -/
def recv (r : Receiver) (buffers : List Bytes) (wanted : Nat) (onePacket : Bool) :
    Checked Answer := do
  match r.pending with
  | some metadata => return ({ r with pending := none }, .ok { metadata, buffers })
  | none =>
    if buffers.length ≠ r.channels.length then
      return (r, .error (.channelCount r.channels.length buffers.length))
    let need ← mulSize wanted r.hostItem
    match buffers.find? fun buffer => decide (buffer.length < need) with
    | some buffer => return (r, .error (.bufferTooSmall need buffer.length))
    | none => collect wanted onePacket (r.backlog + 1) r { buffers }

end SampleStream.Receiver
