import Mathlib.Data.List.DropRight
import SampleStream.Benchmark.Exchange
import SampleStream.Proofs.Benchmark.Packets

/-!
# What a benchmark reports, schedule by schedule

On a link that loses nothing the packets in flight continue the ones that came, so that
none of them is damaged or out of sequence, whatever the order of the steps
(`InStep`). The counts of the two sides need not agree, though. The receiver stops when it
timed out and then sees that the sender is done, and what was sent in between stays on the
link (`inFlight_of_timedOut`). A report is clean just if nothing was (`clean_iff`).
-/

namespace SampleStream.Benchmark

/-! ## Reports -/

/-- Every packet that was sent came, and none was damaged or out of sequence. -/
structure Report.Clean (r : Report) : Prop where
  received : r.received = r.sent
  sequenceErrors : r.sequenceErrors = 0
  dataErrors : r.dataErrors = 0

namespace Exchange

variable {p : Plan} {x x' : Exchange} {moves : List ExchangeMove} {move : ExchangeMove}

/-! ## Moves -/

/-- What a move does, and when it can be made. -/
inductive Moved (p : Plan) (x : Exchange) : ExchangeMove → Exchange → Prop where
  | send {packet : Bytes} (hrunning : x.senderDone = false)
    (hpacket : p.packet x.sender.sequence = some (.ok packet)) :
    Moved p x .send { x with sender := x.sender.accepted, inFlight := x.inFlight ++ [packet] }
  | refuse (hrunning : x.senderDone = false) :
    Moved p x .refuse { x with sender := x.sender.refused }
  | finish (hrunning : x.senderDone = false) : Moved p x .finish { x with senderDone := true }
  | receive {packet : Bytes} {rest : List Bytes} (hwaiting : x.receiver.listening = .waiting)
    (hfirst : x.inFlight = packet :: rest) :
    Moved p x .receive { x with receiver := x.receiver.take p packet, inFlight := rest }
  | timeOut (hwaiting : x.receiver.listening = .waiting) (hempty : x.inFlight = []) :
    Moved p x .timeOut { x with receiver := x.receiver.timedOut }
  | look (hlooking : x.receiver.listening = .looking) :
    Moved p x .look { x with receiver := x.receiver.looked x.senderDone }

theorem moved_of_move? (h : x.move? p move = some x') : Moved p x move x' := by
  cases move with
  | send =>
    simp only [move?] at h
    split at h
    · cases h
    · rename_i hrunning
      obtain ⟨framed, hframed, h⟩ := Option.bind_eq_some_iff.mp h
      cases framed with
      | error e => cases h
      | ok packet =>
        cases h
        exact .send (eq_false_of_ne_true hrunning) hframed
  | refuse =>
    simp only [move?] at h
    split at h
    · cases h
    · rename_i hrunning
      cases h
      exact .refuse (eq_false_of_ne_true hrunning)
  | finish =>
    simp only [move?] at h
    split at h
    · cases h
    · rename_i hrunning
      cases h
      exact .finish (eq_false_of_ne_true hrunning)
  | receive =>
    simp only [move?] at h
    split at h
    · rename_i hwaiting hfirst
      cases h
      exact .receive hwaiting hfirst
    · cases h
  | timeOut =>
    simp only [move?] at h
    split at h
    · rename_i hwaiting hempty
      cases h
      exact .timeOut hwaiting hempty
    · cases h
  | look =>
    simp only [move?] at h
    split at h
    · rename_i hlooking
      cases h
      exact .look hlooking
    · cases h

/-! ## Schedules -/

/-- The state after a schedule of moves, if each can be made in its turn. -/
def play? (p : Plan) (moves : List ExchangeMove) : Option Exchange :=
  moves.foldlM (fun x move => x.move? p move) {}

theorem play?_snoc : play? p (moves ++ [move]) = some x' ↔
    ∃ x, play? p moves = some x ∧ x.move? p move = some x' := by
  simp [play?, List.foldlM_append, Option.bind_eq_some_iff]

/-- The states that can be reached are those that a schedule leads to. -/
theorem reachable_iff : Reachable p x ↔ ∃ moves, play? p moves = some x := by
  constructor
  · intro h
    induction h with
    | start => exact ⟨[], rfl⟩
    | @step x x' move _ hmove ih =>
      obtain ⟨moves, hmoves⟩ := ih
      exact ⟨moves ++ [move], play?_snoc.mpr ⟨x, hmoves, hmove⟩⟩
  · rintro ⟨moves, hmoves⟩
    induction moves using List.reverseRecOn generalizing x with
    | nil =>
      cases hmoves
      exact .start
    | append_singleton moves move ih =>
      obtain ⟨x₀, hbefore, hmove⟩ := play?_snoc.mp hmoves
      exact .step move (ih hbefore) hmove

/-! ## Nothing is damaged -/

theorem listening_take (p : Plan) (r : Receiver) (packet : Bytes) :
    (r.take p packet).listening = r.listening := by
  simp only [Receiver.take]
  split <;> rfl

/-- An intact packet with the number that was expected, if one was, is no error. -/
theorem take_expected {r : Receiver} {packet : Bytes} {seq : UInt32}
    (hcheck : p.check packet = some seq) (hexpected : ∀ e, r.expected = some e → e = seq) :
    r.take p packet = { r with
      packets := r.packets + 1, bytes := r.bytes + packet.length, expected := some (seq + 1) } := by
  have hcalm : r.expected.any (· != seq) = false := by
    cases h : r.expected with
    | none => rfl
    | some e => simp [hexpected e h]
  simp only [Receiver.take, hcheck, hcalm]
  rfl

/-- The packets in flight continue the ones that came, and those were as expected. -/
structure InStep (p : Plan) (x : Exchange) : Prop where
  sequence : x.sender.sequence = UInt32.ofNat x.sender.packets
  sent : x.sender.packets = x.receiver.packets + x.inFlight.length
  inFlight : ∀ {k : Nat} {packet : Bytes}, x.inFlight[k]? = some packet →
    p.packet (UInt32.ofNat (x.receiver.packets + k)) = some (.ok packet)
  expected : ∀ {seq : UInt32}, x.receiver.expected = some seq →
    seq = UInt32.ofNat x.receiver.packets
  sequenceErrors : x.receiver.sequenceErrors = 0
  dataErrors : x.receiver.dataErrors = 0

theorem inStep_start : InStep p {} where
  sequence := rfl
  sent := rfl
  inFlight h := by simp at h
  expected h := by simp at h
  sequenceErrors := rfl
  dataErrors := rfl

theorem Moved.inStep (h : Moved p x move x') (hin : x.InStep p) : x'.InStep p := by
  cases h with
  | @send packet hrunning hpacket =>
    refine ⟨?_, ?_, fun {k other} hk => ?_, hin.expected, hin.sequenceErrors, hin.dataErrors⟩
    · simp only [Sender.accepted, hin.sequence, UInt32.ofNat_add]
      rfl
    · simp only [Sender.accepted, hin.sent, List.length_append, List.length_singleton]
      omega
    · -- the packet behind all others has the next number
      rcases Nat.lt_or_ge k x.inFlight.length with hlt | hge
      · rw [List.getElem?_append_left hlt] at hk
        exact hin.inFlight hk
      · rw [List.getElem?_append_right hge, List.getElem?_singleton] at hk
        split at hk
        · cases hk
          have hlast : x.receiver.packets + k = x.sender.packets := by
            rw [hin.sent]
            omega
          rw [hlast, ← hin.sequence]
          exact hpacket
        · cases hk
  | refuse hrunning =>
    exact ⟨hin.sequence, hin.sent, hin.inFlight, hin.expected, hin.sequenceErrors, hin.dataErrors⟩
  | finish hrunning =>
    exact ⟨hin.sequence, hin.sent, hin.inFlight, hin.expected, hin.sequenceErrors, hin.dataErrors⟩
  | @receive packet rest hwaiting hfirst =>
    have hpacket := hin.inFlight (k := 0) (by rw [hfirst]; rfl)
    have hsent := hin.sent
    rw [hfirst, List.length_cons] at hsent
    rw [take_expected (Plan.check_packet hpacket) fun _ => hin.expected]
    refine ⟨hin.sequence, ?_, fun {k other} hk => ?_, fun hseq => ?_, hin.sequenceErrors,
      hin.dataErrors⟩
    · dsimp only
      omega
    · have hbefore := hin.inFlight (k := k + 1) (by rw [hfirst]; exact hk)
      rwa [← Nat.add_assoc, Nat.add_right_comm] at hbefore
    · cases hseq
      rw [Nat.add_zero, UInt32.ofNat_add]
      rfl
  | timeOut hwaiting hempty =>
    exact ⟨hin.sequence, hin.sent, hin.inFlight, hin.expected, hin.sequenceErrors, hin.dataErrors⟩
  | look hlooking =>
    exact ⟨hin.sequence, hin.sent, hin.inFlight, hin.expected, hin.sequenceErrors, hin.dataErrors⟩

theorem inStep_of_play? (h : play? p moves = some x) : x.InStep p := by
  induction moves using List.reverseRecOn generalizing x with
  | nil =>
    cases h
    exact inStep_start
  | append_singleton moves move ih =>
    obtain ⟨x₀, hbefore, hmove⟩ := play?_snoc.mp h
    exact (moved_of_move? hmove).inStep (ih hbefore)

/-! ## What comes too late -/

/-- How many packets were sent since the receiver last timed out. -/
def lateSends (moves : List ExchangeMove) : Nat :=
  (moves.rtakeWhile (· ≠ .timeOut)).count .send

theorem lateSends_timeOut (moves : List ExchangeMove) : lateSends (moves ++ [.timeOut]) = 0 := by
  rw [lateSends, List.rtakeWhile_concat]
  rfl

theorem lateSends_snoc (moves : List ExchangeMove) (hmove : move ≠ .timeOut) :
    lateSends (moves ++ [move]) = lateSends moves + if move = .send then 1 else 0 := by
  rw [lateSends, List.rtakeWhile_concat, if_pos (by simpa using hmove), List.count_append,
    List.count_singleton, lateSends]
  simp

/-- A receiver that timed out found the link empty, and leaves what was sent since. -/
theorem inFlight_of_timedOut (h : play? p moves = some x)
    (htimedOut : x.receiver.listening ≠ .waiting) : x.inFlight.length = lateSends moves := by
  induction moves using List.reverseRecOn generalizing x with
  | nil =>
    cases h
    exact absurd rfl htimedOut
  | append_singleton moves move ih =>
    obtain ⟨x₀, hbefore, hmove⟩ := play?_snoc.mp h
    cases moved_of_move? hmove with
    | send hrunning hpacket =>
      rw [lateSends_snoc moves (by decide), ← ih hbefore htimedOut, List.length_append]
      rfl
    | refuse hrunning =>
      rw [lateSends_snoc moves (by decide)]
      exact ih (x := x₀) hbefore htimedOut
    | finish hrunning =>
      rw [lateSends_snoc moves (by decide)]
      exact ih (x := x₀) hbefore htimedOut
    | receive hwaiting hfirst =>
      -- the receiver took a packet, so it still waits
      exact absurd ((listening_take ..).trans hwaiting) htimedOut
    | timeOut hwaiting hempty =>
      rw [lateSends_timeOut]
      exact List.length_eq_zero_iff.mpr hempty
    | look hlooking =>
      rw [lateSends_snoc moves (by decide)]
      exact ih (x := x₀) hbefore (by rw [hlooking]; decide)

/-- When both sides have ended, what came falls short of what was sent by just the packets
that were sent after the receiver's last time-out. The report is clean if there were
none. -/
theorem clean_iff (h : play? p moves = some x) (hended : x.ended = true) (elapsed : Elapsed) :
    ((reportOf x.sender x.receiver elapsed).Clean ↔ lateSends moves = 0) ∧
      (reportOf x.sender x.receiver elapsed).sent =
        (reportOf x.sender x.receiver elapsed).received + lateSends moves ∧
      (reportOf x.sender x.receiver elapsed).sequenceErrors = 0 ∧
      (reportOf x.sender x.receiver elapsed).dataErrors = 0 := by
  have hin := inStep_of_play? h
  have hstopped : x.receiver.listening = .stopped := by
    rw [ended, Bool.and_eq_true, beq_iff_eq] at hended
    exact hended.2
  have hlate := inFlight_of_timedOut h (by rw [hstopped]; decide)
  have hsent : x.sender.packets = x.receiver.packets + lateSends moves := hlate ▸ hin.sent
  refine ⟨⟨fun hclean => ?_, fun hnone => ?_⟩, hsent, hin.sequenceErrors, hin.dataErrors⟩
  · have hreceived : x.receiver.packets = x.sender.packets := hclean.received
    omega
  · refine ⟨?_, hin.sequenceErrors, hin.dataErrors⟩
    change x.receiver.packets = x.sender.packets
    omega

/-! ## Two schedules -/

/-- Packets of one word behind the sequence number. -/
def shortPlan : Plan := { payloadWords := 1 }

/-- The receiver takes the packet before it times out. -/
def promptSchedule : List ExchangeMove := [.send, .receive, .finish, .timeOut, .look]

/-- The receiver times out before the only packet is sent, and looks after the sender is
done. -/
def lateSchedule : List ExchangeMove := [.timeOut, .send, .finish, .look]

/-- Where a schedule ends: whether both sides have ended, and what was sent and came. -/
def outcome (moves : List ExchangeMove) : Option (Bool × Nat × Nat) :=
  (play? shortPlan moves).map fun x => (x.ended, x.sender.packets, x.receiver.packets)

theorem outcome_promptSchedule : outcome promptSchedule = some (true, 1, 1) := by
  decide +kernel

/-- Nothing is lost where nothing is late. -/
theorem clean_promptSchedule :
    ∃ x, play? shortPlan promptSchedule = some x ∧ x.ended = true ∧
      lateSends promptSchedule = 0 ∧ (reportOf x.sender x.receiver ⟨0, 0⟩).Clean := by
  obtain ⟨x, hx, heq⟩ := Option.map_eq_some_iff.mp outcome_promptSchedule
  have hended : x.ended = true := congrArg Prod.fst heq
  have hlate : lateSends promptSchedule = 0 := by decide
  exact ⟨x, hx, hended, hlate, (clean_iff hx hended ⟨0, 0⟩).1.mpr hlate⟩

/-- A packet that is lost on a link that loses nothing. -/
theorem lateSchedule_not_clean :
    ∃ x, Reachable shortPlan x ∧ x.ended = true ∧
      ∀ elapsed, ¬ (reportOf x.sender x.receiver elapsed).Clean := by
  have houtcome : outcome lateSchedule = some (true, 1, 0) := by decide +kernel
  obtain ⟨x, hx, heq⟩ := Option.map_eq_some_iff.mp houtcome
  refine ⟨x, reachable_iff.mpr ⟨_, hx⟩, congrArg Prod.fst heq, fun elapsed hclean => ?_⟩
  have hreceived : x.receiver.packets = x.sender.packets := hclean.received
  have hsent : x.sender.packets = 1 := congrArg (·.2.1) heq
  have hcame : x.receiver.packets = 0 := congrArg (·.2.2) heq
  omega

end Exchange
end SampleStream.Benchmark
