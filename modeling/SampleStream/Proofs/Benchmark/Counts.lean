import SampleStream.Benchmark.Script
import SampleStream.Proofs.Benchmark.Acceptance
import SampleStream.Proofs.Benchmark.Schedules

/-!
# What a benchmark counts

The sender numbers the packets that the link took, whatever it refused in between
(`Logged`), and the receiver counts what it heard up to where it stops (`Counted`). On
links of any script the report therefore tells the script: main statement `run_accounts`.
A playback is such a run on links that fail in the end (`playBack_eq_run`).
-/

namespace SampleStream.Benchmark

variable {p : Plan}

/-- The elements of a list up to and including the first at which `stop` holds. -/
def upToFirst {α : Type} (stop : α → Bool) : List α → List α
  | [] => []
  | a :: rest => if stop a then [a] else a :: upToFirst stop rest

/-! ## The sending side -/

/-- How often the link took a packet. -/
def takes (outcomes : List (Option Offer)) : Nat := outcomes.count (some .taken)

/-- How often the link had no room. -/
def refusals (outcomes : List (Option Offer)) : Nat := outcomes.count (some .refused)

/-- The packets that the link took. -/
def taken (log : List (Bytes × Option Offer)) : List Bytes :=
  (log.filter (·.2 = some .taken)).map Prod.fst

/-- The sequence numbers from `start` on, `n` of them, modulo `2 ^ 32`. -/
def numbers (start n : Nat) : List UInt32 := (List.range' start n).map UInt32.ofNat

theorem takes_cons (outcome : Option Offer) (rest : List (Option Offer)) :
    takes (outcome :: rest) = takes [outcome] + takes rest := by
  rw [takes, takes, takes, ← List.count_append, List.singleton_append]

theorem refusals_cons (outcome : Option Offer) (rest : List (Option Offer)) :
    refusals (outcome :: rest) = refusals [outcome] + refusals rest := by
  rw [refusals, refusals, refusals, ← List.count_append, List.singleton_append]

theorem Sender.packets_after (s : Sender) (offer : Offer) :
    (s.after offer).packets = s.packets + takes [some offer] := by
  cases offer <;> rfl

theorem Sender.timeouts_after (s : Sender) (offer : Offer) :
    (s.after offer).timeouts = s.timeouts + refusals [some offer] := by
  cases offer <;> rfl

/-- What the log of a sender says of the sender. -/
structure Logged (p : Plan) (s last : Sender) (log : List (Bytes × Option Offer)) : Prop where
  packets : last.packets = s.packets + takes (log.map Prod.snd)
  timeouts : last.timeouts = s.timeouts + refusals (log.map Prod.snd)
  /-- Each packet has the number of those that were taken before it. -/
  offered : ∀ before packet outcome after, log = before ++ (packet, outcome) :: after →
    p.packet (UInt32.ofNat (s.packets + takes (before.map Prod.snd))) = some (.ok packet)
  taken : (taken log).map p.check =
    (numbers s.packets (takes (log.map Prod.snd))).map some

namespace Logged

variable {s last : Sender} {packet : Bytes} {log : List (Bytes × Option Offer)}

theorem nil (p : Plan) (s : Sender) : Logged p s s [] :=
  ⟨rfl, rfl, fun _ _ _ _ h => absurd h.symm (by simp), rfl⟩

/-- The packet that failed was built like every other. -/
theorem failed (hpacket : p.packet (UInt32.ofNat s.packets) = some (.ok packet)) :
    Logged p s s [(packet, none)] := by
  refine ⟨rfl, rfl, fun before packet' outcome after h => ?_, rfl⟩
  cases before with
  | nil =>
    cases h
    exact hpacket
  | cons _ _ => simp at h

/-- One packet more in front. A packet that was taken moves the number on, and one that
was refused leaves it. -/
theorem cons {offer : Offer} (hpacket : p.packet (UInt32.ofNat s.packets) = some (.ok packet))
    (h : Logged p (s.after offer) last log) : Logged p s last ((packet, some offer) :: log) := by
  have hnext (before : List (Option Offer)) :
      s.packets + takes (some offer :: before) = (s.after offer).packets + takes before := by
    rw [takes_cons, s.packets_after, Nat.add_assoc]
  refine ⟨?_, ?_, fun before packet' outcome after hlog => ?_, ?_⟩
  · rw [List.map_cons, hnext, h.packets]
  · rw [List.map_cons, refusals_cons, h.timeouts, s.timeouts_after, Nat.add_assoc]
  · cases before with
    | nil =>
      cases hlog
      exact hpacket
    | cons first before =>
      cases hlog
      rw [List.map_cons, hnext]
      exact h.offered _ _ _ _ rfl
  · have hrest := h.taken
    rw [s.packets_after] at hrest
    rw [List.map_cons, takes_cons]
    cases offer with
    | taken =>
      have hone : takes [some Offer.taken] = 1 := rfl
      rw [hone] at hrest ⊢
      rw [Nat.add_comm 1, numbers, List.range'_succ, List.map_cons, List.map_cons, ← numbers,
        ← hrest, ← Plan.check_packet hpacket]
      rfl
    | refused =>
      have hnone : takes [some Offer.refused] = 0 := rfl
      rw [hnone] at hrest ⊢
      rw [Nat.zero_add, ← Nat.add_zero s.packets, ← hrest]
      rfl

end Logged

/-- A sender whose packets can be framed offers one to the link for each outcome up to the
first failure. The induction is on the outcomes; a turn of the loop keeps the sequence
number equal to the packets sent, modulo `2 ^ 32`. -/
theorem Sender.run_logged (hsmall : p.payloadWords + 3 ≤ maxPacketWords)
    (outcomes : List (Option Offer)) (s : Sender) (hs : s.sequence = UInt32.ofNat s.packets) :
    (s.run p outcomes).2.map Prod.snd = upToFirst Option.isNone outcomes ∧
      Logged p s (s.run p outcomes).1 (s.run p outcomes).2 := by
  induction outcomes generalizing s with
  | nil => exact ⟨rfl, .nil p s⟩
  | cons outcome rest ih =>
    obtain ⟨packet, hpacket⟩ : ∃ packet, p.packet s.sequence = some (.ok packet) :=
      Plan.packet_ok_iff.mpr hsmall
    cases outcome with
    | none =>
      have hrun : s.run p (none :: rest) = (s, [(packet, none)]) := by
        rw [Sender.run, hpacket]
      rw [hrun]
      exact ⟨rfl, .failed (hs ▸ hpacket)⟩
    | some offer =>
      have hrun : s.run p (some offer :: rest) =
          (((s.after offer).run p rest).1,
            (packet, some offer) :: ((s.after offer).run p rest).2) := by
        rw [Sender.run, hpacket]
      have hnext : (s.after offer).sequence = UInt32.ofNat (s.after offer).packets := by
        cases offer with
        | taken =>
          rw [Sender.after, Sender.accepted, UInt32.ofNat_add, ← hs]
          rfl
        | refused => exact hs
      obtain ⟨houtcomes, hlogged⟩ := ih _ hnext
      rw [hrun]
      exact ⟨congrArg (some offer :: ·) houtcomes, hlogged.cons (hs ▸ hpacket)⟩

/-! ## The receiving side -/

namespace Event

/-- Whether the receiver stops. -/
def stops : Event → Bool
  | frame _ => false
  | nothing senderDone => senderDone
  | failure => true

/-- Whether nothing came for a while. -/
def isTimeOut : Event → Bool
  | nothing _ => true
  | _ => false

/-- The frame that came, if one did. -/
def frame? : Event → Option Bytes
  | frame bytes => some bytes
  | _ => none

end Event

/-- How many of some sequence numbers are not the one that is expected. After any of them
the next one is expected. -/
def surprises : Option UInt32 → List UInt32 → Nat
  | _, [] => 0
  | expected, seq :: rest => (expected.any (· != seq)).toNat + surprises (some (seq + 1)) rest

/-- How many of some sequence numbers do not follow the one before, modulo `2 ^ 32`. -/
def jumps (seqs : List UInt32) : Nat :=
  (seqs.zip seqs.tail).countP fun (seq, next) => next ≠ seq + 1

theorem surprises_some (seq : UInt32) (seqs : List UInt32) :
    surprises (some (seq + 1)) seqs = jumps (seq :: seqs) := by
  induction seqs generalizing seq with
  | nil => rfl
  | cons next rest ih =>
    have hjumps : jumps (seq :: next :: rest) =
        jumps (next :: rest) + if next ≠ seq + 1 then 1 else 0 := by
      simp only [jumps, List.tail_cons, List.zip_cons_cons, List.countP_cons, decide_eq_true_eq]
    rw [surprises, ih, hjumps, Option.any_some, Nat.add_comm]
    by_cases h : next = seq + 1
    · rw [h, bne_self_eq_false, if_neg (not_not_intro rfl), Bool.toNat_false]
    · rw [if_pos h, bne_iff_ne.mpr (Ne.symm h), Bool.toNat_true]

/-- The first sequence number is never a surprise. -/
theorem surprises_none (seqs : List UInt32) : surprises none seqs = jumps seqs := by
  cases seqs with
  | nil => rfl
  | cons seq rest => rw [surprises, surprises_some, Option.any_none, Bool.toNat_false, Nat.zero_add]

/-- The frames among some events. -/
def frames (events : List Event) : List Bytes := events.filterMap Event.frame?

theorem Receiver.take_damaged {bytes : Bytes} (hcheck : p.check bytes = none) (r : Receiver) :
    r.take p bytes = { r with
      packets := r.packets + 1, bytes := r.bytes + bytes.length,
      dataErrors := r.dataErrors + 1 } := by
  simp only [Receiver.take, hcheck]

theorem Receiver.take_intact {bytes : Bytes} {seq : UInt32} (hcheck : p.check bytes = some seq)
    (r : Receiver) :
    r.take p bytes = { r with
      packets := r.packets + 1, bytes := r.bytes + bytes.length,
      sequenceErrors := r.sequenceErrors + (r.expected.any (· != seq)).toNat,
      expected := some (seq + 1) } := by
  simp only [Receiver.take, hcheck]

/-- What the receiver counted of what it heard. -/
structure Counted (p : Plan) (r : Receiver) (events : List Event) (r' : Receiver) : Prop where
  packets : r'.packets = r.packets + (frames events).length
  bytes : r'.bytes = r.bytes + ((frames events).map List.length).sum
  timeouts : r'.timeouts = r.timeouts + events.countP Event.isTimeOut
  dataErrors : r'.dataErrors = r.dataErrors + (frames events).countP fun f => (p.check f).isNone
  sequenceErrors : r'.sequenceErrors = r.sequenceErrors +
    surprises r.expected ((frames events).filterMap p.check)

namespace Counted

variable {r r' : Receiver} {event : Event} {rest : List Event}

theorem nil (p : Plan) (r : Receiver) : Counted p r [] r := ⟨rfl, rfl, rfl, rfl, rfl⟩

/-- One event more in front. Only frames that are intact move the expectation. -/
theorem cons (h : Counted p (r.hear p event) rest r') : Counted p r (event :: rest) r' := by
  cases event with
  | frame bytes =>
    have hframes : frames (.frame bytes :: rest) = bytes :: frames rest := rfl
    rw [Receiver.hear] at h
    cases hcheck : p.check bytes with
    | none =>
      rw [Receiver.take_damaged hcheck] at h
      refine ⟨?_, ?_, h.timeouts, ?_, ?_⟩
      · rw [h.packets, hframes, List.length_cons]
        exact Nat.add_right_comm ..
      · rw [h.bytes, hframes, List.map_cons, List.sum_cons, Nat.add_assoc]
      · rw [h.dataErrors, hframes, List.countP_cons_of_pos (by rw [hcheck]; rfl)]
        exact Nat.add_right_comm ..
      · rw [h.sequenceErrors, hframes, List.filterMap_cons_none hcheck]
    | some seq =>
      rw [Receiver.take_intact hcheck] at h
      refine ⟨?_, ?_, h.timeouts, ?_, ?_⟩
      · rw [h.packets, hframes, List.length_cons]
        exact Nat.add_right_comm ..
      · rw [h.bytes, hframes, List.map_cons, List.sum_cons, Nat.add_assoc]
      · rw [h.dataErrors, hframes,
          List.countP_cons_of_neg (by rw [hcheck]; exact Bool.false_ne_true)]
      · rw [h.sequenceErrors, hframes, List.filterMap_cons_some hcheck, surprises, Nat.add_assoc]
  | nothing senderDone =>
    refine ⟨h.packets, h.bytes, ?_, h.dataErrors, h.sequenceErrors⟩
    rw [h.timeouts, List.countP_cons_of_pos rfl]
    exact Nat.add_right_comm ..
  | failure => exact ⟨h.packets, h.bytes, h.timeouts, h.dataErrors, h.sequenceErrors⟩

end Counted

/-- A receiver that waits goes on waiting until it stops. -/
theorem Receiver.listening_hear {r : Receiver} (hwaiting : r.listening = .waiting)
    (event : Event) :
    (r.hear p event).listening = if event.stops then .stopped else .waiting := by
  cases event with
  | frame bytes => exact (Exchange.listening_take p r bytes).trans hwaiting
  | nothing senderDone => rfl
  | failure => rfl

theorem Receiver.run_of_stops {r : Receiver} (hwaiting : r.listening = .waiting) {event : Event}
    (hstops : event.stops = true) (rest : List Event) :
    r.run p (event :: rest) = r.hear p event := by
  have hheard := Receiver.listening_hear (p := p) hwaiting event
  rw [hstops, if_pos rfl] at hheard
  rw [Receiver.run]
  exact if_pos hheard

theorem Receiver.run_of_goes_on {r : Receiver} (hwaiting : r.listening = .waiting) {event : Event}
    (hstops : event.stops = false) (rest : List Event) :
    (r.hear p event).listening = .waiting ∧
      r.run p (event :: rest) = (r.hear p event).run p rest := by
  have hheard := Receiver.listening_hear (p := p) hwaiting event
  rw [hstops, if_neg Bool.false_ne_true] at hheard
  refine ⟨hheard, ?_⟩
  rw [Receiver.run]
  exact if_neg (by rw [hheard]; decide)

/-- The receiver counts what it hears up to where it stops. -/
theorem Receiver.run_counted (events : List Event) (r : Receiver)
    (hwaiting : r.listening = .waiting) :
    Counted p r (upToFirst Event.stops events) (r.run p events) := by
  induction events generalizing r with
  | nil => exact .nil p r
  | cons event rest ih =>
    rw [upToFirst]
    cases hstops : event.stops with
    | true =>
      rw [if_pos rfl, Receiver.run_of_stops hwaiting hstops]
      exact .cons (.nil p _)
    | false =>
      obtain ⟨hnext, hrun⟩ := Receiver.run_of_goes_on (p := p) hwaiting hstops rest
      rw [if_neg Bool.false_ne_true, hrun]
      exact .cons (ih _ hnext)

/-! ## Reports -/

/-- What a report says of the script of a benchmark. -/
structure Accounts (p : Plan) (outcomes : List (Option Offer)) (events : List Event)
    (report : Report) (log : List (Bytes × Option Offer)) : Prop where
  /-- A packet is offered for each outcome up to the first failure of the link. -/
  outcomes : log.map Prod.snd = upToFirst Option.isNone outcomes
  /-- What is offered is the packet with the number of those taken before it, so that one
  that was refused is offered again. -/
  offered : ∀ before packet outcome after, log = before ++ (packet, outcome) :: after →
    p.packet (UInt32.ofNat (takes (before.map Prod.snd))) = some (.ok packet)
  taken : (taken log).map p.check = (numbers 0 report.sent).map some
  sent : report.sent = takes (log.map Prod.snd)
  sendTimeouts : report.sendTimeouts = refusals (log.map Prod.snd)
  received : report.received = (frames (upToFirst Event.stops events)).length
  receivedBytes : report.receivedBytes =
    ((frames (upToFirst Event.stops events)).map List.length).sum
  receiveTimeouts : report.receiveTimeouts =
    (upToFirst Event.stops events).countP Event.isTimeOut
  dataErrors : report.dataErrors =
    (frames (upToFirst Event.stops events)).countP fun f => (p.check f).isNone
  sequenceErrors : report.sequenceErrors =
    jumps ((frames (upToFirst Event.stops events)).filterMap p.check)

/-- A benchmark runs just if its packets can be framed. -/
theorem run_eq_ok_iff {outcomes : List (Option Offer)} {events : List Event} {elapsed : Elapsed}
    {report : Report} {log : List (Bytes × Option Offer)} :
    run p outcomes events elapsed = some (.ok (report, log)) ↔
      p.payloadWords + 3 ≤ maxPacketWords ∧
        reportOf (Sender.run p {} outcomes).1 (Receiver.run p {} events) elapsed = report ∧
        (Sender.run p {} outcomes).2 = log := by
  have hfirst : (∃ packet, p.packet 0 = some (.ok packet)) ↔ _ := Plan.packet_ok_iff
  rw [← hfirst, run]
  cases p.packet 0 with
  | none => exact ⟨nofun, nofun⟩
  | some framed =>
    cases framed with
    | error e => exact ⟨nofun, nofun⟩
    | ok packet => simp

/-- The report of any benchmark that runs tells its script. -/
theorem run_accounts (p : Plan) (outcomes : List (Option Offer)) (events : List Event)
    (elapsed : Elapsed) :
    ((∃ report log, run p outcomes events elapsed = some (.ok (report, log))) ↔
      p.payloadWords + 3 ≤ maxPacketWords) ∧
    ∀ report log, run p outcomes events elapsed = some (.ok (report, log)) →
      Accounts p outcomes events report log := by
  constructor
  · constructor
    · rintro ⟨report, log, h⟩
      exact (run_eq_ok_iff.mp h).1
    · exact fun hsmall => ⟨_, _, run_eq_ok_iff.mpr ⟨hsmall, rfl, rfl⟩⟩
  intro report log h
  obtain ⟨hsmall, rfl, rfl⟩ := run_eq_ok_iff.mp h
  obtain ⟨houtcomes, hlogged⟩ := Sender.run_logged hsmall outcomes {} rfl
  have hcounted : Counted p {} _ _ := Receiver.run_counted events {} rfl
  have hsent := hlogged.packets.trans (Nat.zero_add _)
  refine ⟨houtcomes, fun before packet outcome after hlog => ?_, ?_, hsent,
    hlogged.timeouts.trans (Nat.zero_add _), hcounted.packets.trans (Nat.zero_add _),
    hcounted.bytes.trans (Nat.zero_add _), hcounted.timeouts.trans (Nat.zero_add _),
    hcounted.dataErrors.trans (Nat.zero_add _), ?_⟩
  · rw [← Nat.zero_add (takes _)]
    exact hlogged.offered before packet outcome after hlog
  · rw [hlogged.taken, ← hsent]
    rfl
  · rw [← surprises_none]
    exact hcounted.sequenceErrors.trans (Nat.zero_add _)

/-- The packet with a small sequence number. -/
def earlyPacket (seq : UInt8) : Bytes :=
  [5, 0, seq, 16, 0, 16, 0, 0, seq, 0, 0, 0, seq, 0, 0, 0, seq + 1, 0, 0, 0]

/-- A sender whose first packet is refused once and whose link fails on the third, and a
receiver that hears the greatest number and the one after it, half a packet, the next number
twice and a later one, until nothing comes and the sender is done. -/
theorem run_accounts_countingTwo :
    ∃ report log, run Plan.countingTwo [some .refused, some .taken, some .taken, none, some .taken]
        [.frame Plan.lastPacket, .nothing false, .frame (earlyPacket 0),
          .frame ((earlyPacket 1).take 12), .frame (earlyPacket 1), .frame (earlyPacket 1),
          .frame (earlyPacket 6), .nothing true, .frame (earlyPacket 2)] ⟨1, 0⟩ =
        some (.ok (report, log)) ∧
      (taken log).map Plan.countingTwo.check = [some 0, some 1] ∧
      report.sent = 2 ∧ report.sendTimeouts = 1 ∧ report.received = 6 ∧
      report.receivedBytes = 112 ∧ report.receiveTimeouts = 2 ∧ report.dataErrors = 1 ∧
      report.sequenceErrors = 2 := by
  obtain ⟨hruns, haccounts⟩ := run_accounts Plan.countingTwo
    [some .refused, some .taken, some .taken, none, some .taken]
    [.frame Plan.lastPacket, .nothing false, .frame (earlyPacket 0),
      .frame ((earlyPacket 1).take 12), .frame (earlyPacket 1), .frame (earlyPacket 1),
      .frame (earlyPacket 6), .nothing true, .frame (earlyPacket 2)] ⟨1, 0⟩
  obtain ⟨report, log, hrun⟩ := hruns.mpr (by decide)
  have h := haccounts report log hrun
  have hsent : report.sent = 2 := by
    rw [h.sent, h.outcomes]
    decide
  refine ⟨report, log, hrun, ?_, hsent, ?_, ?_, ?_, ?_, ?_, ?_⟩
  · rw [h.taken, hsent]
    decide
  · rw [h.sendTimeouts, h.outcomes]
    decide
  · rw [h.received]
    decide
  · rw [h.receivedBytes]
    decide
  · rw [h.receiveTimeouts]
    decide
  · rw [h.dataErrors]
    decide
  · rw [h.sequenceErrors]
    decide

/-! ## Playing back -/

theorem Sender.playBack_eq_run (hsmall : p.payloadWords + 3 ≤ maxPacketWords)
    (offers : List Offer) (s : Sender) (offered : Array Bytes) :
    Sender.playBack p offers s offered =
      ((s.run p (offers.map some ++ [none])).1,
        offered.toList ++ (s.run p (offers.map some ++ [none])).2.map Prod.fst) := by
  induction offers generalizing s offered with
  | nil =>
    obtain ⟨packet, hpacket⟩ : ∃ packet, p.packet s.sequence = some (.ok packet) :=
      Plan.packet_ok_iff.mpr hsmall
    rw [Sender.playBack, hpacket, List.map_nil, List.nil_append, Sender.run, hpacket]
    simp
  | cons offer rest ih =>
    obtain ⟨packet, hpacket⟩ : ∃ packet, p.packet s.sequence = some (.ok packet) :=
      Plan.packet_ok_iff.mpr hsmall
    rw [Sender.playBack, hpacket, List.map_cons, List.cons_append, Sender.run, hpacket]
    cases offer <;> simp [ih, Sender.after]

/-- What the receiver of a playback finds. -/
def heard : Option Bytes → Event
  | some frame => .frame frame
  | none => .nothing false

theorem Receiver.failed_foldl_eq_run (script : List (Option Bytes)) (r : Receiver)
    (hwaiting : r.listening = .waiting) :
    (script.foldl (fun r frame => r.hear p (heard frame)) r).failed =
      r.run p (script.map heard ++ [.failure]) := by
  induction script generalizing r with
  | nil =>
    have hstops : Event.failure.stops = true := rfl
    exact (Receiver.run_of_stops hwaiting hstops []).symm
  | cons frame rest ih =>
    have hgoes : (heard frame).stops = false := by cases frame <;> rfl
    obtain ⟨hnext, hrun⟩ :=
      Receiver.run_of_goes_on (p := p) hwaiting hgoes (rest.map heard ++ [.failure])
    rw [List.foldl_cons, List.map_cons, List.cons_append, hrun]
    exact ih _ hnext

theorem Receiver.playBack_eq_run (script : List (Option Bytes)) :
    Receiver.playBack p script = Receiver.run p {} (script.map heard ++ [.failure]) := by
  rw [← Receiver.failed_foldl_eq_run script {} rfl]
  rw [Receiver.playBack]
  congr 2
  funext r frame
  cases frame <;> rfl

/-- A benchmark on recorded outcomes is the one on links that fail after them. -/
theorem playBack_eq_run (offers : List Offer) (script : List (Option Bytes)) :
    playBack p offers script =
      (run p (offers.map some ++ [none]) (script.map heard ++ [.failure]) ⟨0, 0⟩).map
        (Except.map fun (report, log) => (report, log.map Prod.fst)) := by
  rw [playBack, run]
  cases hfirst : p.packet 0 with
  | none => rfl
  | some framed =>
    cases framed with
    | error e => rfl
    | ok packet =>
      have hsmall := Plan.packet_ok_iff.mp ⟨packet, hfirst⟩
      simp only [bind, Option.bind_some, Sender.playBack_eq_run hsmall,
        Receiver.playBack_eq_run]
      rfl

end SampleStream.Benchmark
