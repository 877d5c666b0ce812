import SampleStream.Time.Reckoning
import SampleStream.Number.Decimal

/-!
# Timestamps

A point in time, or a duration, as whole seconds and a fraction of a second.
Keeping the two apart lets large tick counts keep their resolution. Every
operation goes through `Timestamp.normalized`, which moves whole seconds out of
the fraction; a sum of seconds beyond the count range has no result.
-/

namespace SampleStream

/-- Whole seconds and a fraction in `[0, 1)`. -/
structure Timestamp (R : Type) where
  seconds : Int
  fraction : R
deriving DecidableEq

/-- Timestamps as the streams carry them. -/
abbrev Time := Timestamp Float

namespace Timestamp
open Reckoning

variable {R : Type} [Reckoning R]

/-! ## Making timestamps -/

/-- The start of time. -/
def zero : Timestamp R := ⟨0, ofInt 0⟩

/-- Seconds and any fraction, with the whole part of the fraction carried over
to the seconds. Taking the floor away can round up to a full second, which is
carried as well. -/
def normalized (seconds : Int) (fraction : R) : Checked (Timestamp R) := do
  let carry := floor fraction
  let seconds ← fit R (seconds + truncate carry)
  let fraction := fraction - carry
  if atMost (ofInt 1) fraction then
    let seconds ← fit R (seconds + 1)
    return ⟨seconds, fraction - ofInt 1⟩
  else
    return ⟨seconds, fraction⟩

/-- A real number of seconds. -/
def ofSeconds (seconds : R) : Checked (Timestamp R) := normalized 0 seconds

/-- The time of a tick count at `rate` ticks a second. The whole and the
fractional part of the rate are handled apart, so that a rate that is no whole
number costs no precision on large counts. -/
def ofTicks (ticks : Int) (rate : R) : Checked (Timestamp R) := do
  let wholeRate := truncate rate
  if wholeRate = 0 then
    ofSeconds (ofInt ticks / rate)
  else
    let restRate := rate - ofInt wholeRate
    let seconds ← fit R (ticks.tdiv wholeRate)
    let counted ← fit R (seconds * wholeRate)
    let left ← fit R (ticks - counted)
    normalized seconds ((ofInt left - ofInt seconds * restRate) / rate)

/-! ## Using timestamps -/

/-- The tick count at `rate` ticks a second, to the nearest tick. -/
def toTicks (t : Timestamp R) (rate : R) : Checked Int := do
  let wholeRate := truncate rate
  let restRate := rate - ofInt wholeRate
  let whole ← fit R (t.seconds * wholeRate)
  fit R (whole + nearest (ofInt t.seconds * restRate + t.fraction * rate))

/-- The sum of a time and a duration. -/
def add (s t : Timestamp R) : Checked (Timestamp R) := do
  normalized (← fit R (s.seconds + t.seconds)) (s.fraction + t.fraction)

/-- The duration from `t` to `s`. -/
def sub (s t : Timestamp R) : Checked (Timestamp R) := do
  normalized (← fit R (s.seconds - t.seconds)) (s.fraction - t.fraction)

/-- The time a real number of seconds later. -/
def addSeconds (t : Timestamp R) (seconds : R) : Checked (Timestamp R) := do
  t.add (← ofSeconds seconds)

/-- All seconds in one number. -/
def toSeconds (t : Timestamp R) : R := ofInt t.seconds + t.fraction

/-- The order of two times: by seconds, then by fraction. Fractions that are no
numbers are in no order. -/
def compare (s t : Timestamp R) : Option Ordering :=
  if s.seconds < t.seconds then some .lt
  else if t.seconds < s.seconds then some .gt
  else match atMost s.fraction t.fraction, atMost t.fraction s.fraction with
    | true, true => some .eq
    | true, false => some .lt
    | false, true => some .gt
    | false, false => none

/-- Whether a time is earlier than another. -/
def before (s t : Timestamp R) : Bool := s.compare t == some .lt

/-- Whether two times are the same. -/
def same (s t : Timestamp R) : Bool := s.compare t == some .eq

/-- Seconds with nine decimal places, the fraction cut off after them. -/
def text (t : Time) : String :=
  let nanos := Real.truncate 0 (2 ^ 64 - 1) (t.fraction * Real.ofNat 1000000000)
  toString t.seconds ++ "." ++
    String.ofList (Decimal.padLeft 9 (Decimal.digits nanos.toNat)) ++ "s"

end Timestamp
end SampleStream
