import SampleStream.Checked
import SampleStream.Number.Decimal

/-!
# Benchmark reports

The counts of a benchmark run, the rate that follows from them, and their text.
-/

namespace SampleStream.Benchmark

/-- A length of time. -/
structure Elapsed where
  seconds : Nat
  nanos : Nat
deriving DecidableEq, Repr

namespace Elapsed

/-- The nanoseconds of a second. -/
def nanosPerSecond : Nat := 1000000000

/-- A length of time; whole seconds among the nanoseconds are carried over. -/
def create (seconds nanos : Nat) : Checked Elapsed := do
  return ⟨← addSize seconds (nanos / nanosPerSecond), nanos % nanosPerSecond⟩

/-- All of it in seconds. -/
def toSeconds (e : Elapsed) : Float :=
  Real.ofNat e.seconds + Real.ofNat e.nanos / Real.ofNat nanosPerSecond

end Elapsed

/-- What a benchmark run counted. -/
structure Report where
  /-- Packets that the link took. -/
  sent : Nat := 0
  /-- Packets that came back. -/
  received : Nat := 0
  sendTimeouts : Nat := 0
  receiveTimeouts : Nat := 0
  /-- Intact packets whose sequence number was not the one expected. -/
  sequenceErrors : Nat := 0
  /-- Packets that were damaged. -/
  dataErrors : Nat := 0
  receivedBytes : Nat := 0
  elapsed : Elapsed := ⟨0, 0⟩

namespace Report

/-- Bytes received in a second; zero when no time went by. -/
def throughput (r : Report) : Float :=
  let seconds := r.elapsed.toSeconds
  if 0 < seconds then Real.ofNat r.receivedBytes / seconds else 0

/-- Packets that were sent and never seen again. -/
def dropped (r : Report) : Nat := r.sent - r.received

/-- The report, a line for each count. -/
def text (r : Report) : String :=
  "\n".intercalate [
    "Benchmark results after " ++ Decimal.fixed 3 r.elapsed.toSeconds ++ "s",
    "  TX packets:    " ++ toString r.sent,
    "  RX packets:    " ++ toString r.received,
    "  TX timeouts:   " ++ toString r.sendTimeouts,
    "  RX timeouts:   " ++ toString r.receiveTimeouts,
    "  Seq errors:    " ++ toString r.sequenceErrors,
    "  Data errors:   " ++ toString r.dataErrors,
    "  Throughput:    " ++ Decimal.fixed 2 (r.throughput / Real.ofNat 1000000) ++ " MB/s"]

end Report
end SampleStream.Benchmark
