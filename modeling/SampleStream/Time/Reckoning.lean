import SampleStream.Checked
import SampleStream.Number.Real

/-!
# The arithmetic in which time is reckoned

Timestamps are computed in one of two arithmetics: fractions of a second are
doubles and counts are bounded integers when the library runs, and they may as
well be exact numbers when one asks what the computation is meant to give.
`Reckoning` names the operations that both need; the timestamps are written
once over it.
-/

namespace SampleStream

/-- Numbers for fractions of seconds and rates, together with their passage to
and from integers. -/
class Reckoning (R : Type) extends Add R, Sub R, Mul R, Div R where
  /-- The number of an integer. -/
  ofInt : Int → R
  /-- The integer part of a number. -/
  truncate : R → Int
  /-- The integer nearest to a number, ties away from zero. -/
  nearest : R → Int
  /-- The greatest whole number that is not above a number. -/
  floor : R → R
  /-- Whether one number is at most another; of a value that is no number it is
  false both ways. -/
  atMost : R → R → Bool
  /-- An integer as a count of seconds or ticks, if it is in range. -/
  fit : Int → Checked Int

/-- Doubles, and counts of 64 bits with a sign. Numbers beyond the range of the
counts go to its ends. -/
instance : Reckoning Float where
  ofInt := Real.ofInt
  truncate := Real.truncate (-signedLimit) (signedLimit - 1)
  nearest := Real.round (-signedLimit) (signedLimit - 1)
  floor := Real.floor
  atMost a b := decide (a ≤ b)
  fit := fitSigned

end SampleStream
