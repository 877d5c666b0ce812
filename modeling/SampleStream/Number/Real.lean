import SampleStream.Number.Binary

/-!
# Conversions of double-precision numbers

Whole numbers to and from `Float`, the floor, and the passage between double
and single precision. Sums, products, quotients and comparisons are those of
`Float` itself; everything here is decided on the bits of the number.
-/

namespace SampleStream.Real

/-- The value that a number's bits stand for. -/
def value (x : Float) : Binary.Value := Binary.double.unpack x.toBits.toNat

/-- The number nearest to a value. -/
def ofValue (v : Binary.Value) : Float := Float.ofBits (UInt64.ofNat (Binary.double.pack v))

/-- The number nearest to a natural number below `2 ^ 64`. -/
def ofNat (n : Nat) : Float := (UInt64.ofNat n).toFloat

/-- The number nearest to an integer of magnitude below `2 ^ 64`. -/
def ofInt (z : Int) : Float :=
  if z < 0 then -ofNat z.natAbs else ofNat z.natAbs

/-- The number nearest to `± num / den`. -/
def ofRatio (negative : Bool) (num den : Nat) : Float :=
  Float.ofBits <| UInt64.ofNat <|
    Binary.double.signBit negative + Binary.double.nearest num den 0

/-! ## Whole numbers -/

/-- The integer part, within `[low, high]`. -/
def truncate (low high : Int) (x : Float) : Int :=
  (value x).toIntWith Binary.truncated low high

/-- The nearest integer, ties away from zero, within `[low, high]`. -/
def round (low high : Int) (x : Float) : Int :=
  (value x).toIntWith Binary.rounded low high

/-- The greatest whole number that is not above `x`. Numbers that are whole
already, zero of either sign among them, are their own floor. -/
def floor (x : Float) : Float :=
  match value x with
  | .finite negative significand exponent =>
    let unit := 2 ^ (-exponent).toNat
    if significand % unit = 0 then x
    else if negative then -ofNat (significand / unit + 1)
    else ofNat (significand / unit)
  | _ => x

/-! ## Single precision -/

/-- The bits of the single-precision number nearest to `x`. -/
def narrow (x : Float) : Nat := Binary.single.pack (value x)

/-- The number that single-precision bits stand for. -/
def widen (bits : Nat) : Float := ofValue (Binary.single.unpack bits)

end SampleStream.Real
