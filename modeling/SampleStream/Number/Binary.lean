import SampleStream.Checked
import SampleStream.Number.Rounding

/-!
# Binary floating point by its bits

A layout of sign, exponent and fraction bits, the value that a bit pattern
stands for, and the bit pattern nearest to an exact value (ties to even). All
of it is arithmetic on natural numbers and integers, so every reading, every
narrowing and every text of a number is decided by exact arithmetic.
-/

namespace SampleStream.Binary

/-- The widths of the exponent and fraction fields. -/
structure Layout where
  exponentBits : Nat
  fractionBits : Nat
deriving DecidableEq, Repr

/-- Four bytes to a number. -/
def single : Layout := ⟨8, 23⟩

/-- Eight bytes to a number. -/
def double : Layout := ⟨11, 52⟩

/-- What a bit pattern stands for. A finite value is
`± significand * 2 ^ exponent`. -/
inductive Value where
  | notANumber
  | infinite (negative : Bool)
  | finite (negative : Bool) (significand : Nat) (exponent : Int)
deriving DecidableEq, Repr

namespace Layout

/-- The exponent of the last place of the smallest values. -/
def least (l : Layout) : Int := 2 - 2 ^ (l.exponentBits - 1) - l.fractionBits

/-- The magnitude bits of infinity: all exponent bits set. -/
def infinity (l : Layout) : Nat := (2 ^ l.exponentBits - 1) * 2 ^ l.fractionBits

/-- The sign bit. -/
def signBit (l : Layout) (negative : Bool) : Nat :=
  if negative then 2 ^ (l.exponentBits + l.fractionBits) else 0

/-- The value of a bit pattern. -/
def unpack (l : Layout) (bits : Nat) : Value :=
  let negative := bits / 2 ^ (l.exponentBits + l.fractionBits) % 2 == 1
  let exponent := bits / 2 ^ l.fractionBits % 2 ^ l.exponentBits
  let fraction := bits % 2 ^ l.fractionBits
  if exponent = 2 ^ l.exponentBits - 1 then
    if fraction = 0 then .infinite negative else .notANumber
  else if exponent = 0 then .finite negative fraction l.least
  else .finite negative (fraction + 2 ^ l.fractionBits) (l.least + exponent - 1)

/-- The greatest `e` with `2 ^ e ≤ num / den`, both positive. -/
def floorLog2 (num den : Nat) : Int :=
  let e : Int := (num.log2 : Int) - den.log2
  if den * 2 ^ e.toNat ≤ num * 2 ^ (-e).toNat then e else e - 1

/-- The magnitude bits nearest to `num / den * 2 ^ scale`, ties to even;
values past the largest finite one become infinity. The last place of the
result is chosen first, so one rounding is made; a carry out of the fraction
moves into the exponent by itself, because the fields are adjacent. -/
def nearest (l : Layout) (num den : Nat) (scale : Int) : Nat :=
  if num = 0 then 0
  else
    let place := max l.least (floorLog2 num den + scale - l.fractionBits)
    let shift := scale - place
    let significand := divHalfEven (num * 2 ^ shift.toNat) (den * 2 ^ (-shift).toNat)
    min ((place - l.least).toNat * 2 ^ l.fractionBits + significand) l.infinity

/-- The bit pattern nearest to a value. -/
def pack (l : Layout) : Value → Nat
  | .notANumber => l.infinity + 2 ^ (l.fractionBits - 1)
  | .infinite negative => l.signBit negative + l.infinity
  | .finite negative significand exponent =>
    l.signBit negative + l.nearest significand 1 exponent

end Layout

/-! ## Whole numbers from values -/

/-- `significand * 2 ^ exponent` without its fractional part. -/
def truncated (significand : Nat) (exponent : Int) : Nat :=
  significand * 2 ^ exponent.toNat / 2 ^ (-exponent).toNat

/-- `significand * 2 ^ exponent` rounded to a whole number, ties up. -/
def rounded (significand : Nat) (exponent : Int) : Nat :=
  divHalfUp (significand * 2 ^ exponent.toNat) (2 ^ (-exponent).toNat)

/-- A magnitude with its sign. -/
def signed (negative : Bool) (magnitude : Nat) : Int :=
  if negative then -(magnitude : Int) else magnitude

/-- The whole number in `[low, high]` that a value comes to when `whole` turns
magnitudes into whole numbers: values beyond the range go to its ends, and what
is not a number becomes zero. -/
def Value.toIntWith (whole : Nat → Int → Nat) (low high : Int) : Value → Int
  | .notANumber => 0
  | .infinite negative => if negative then low else high
  | .finite negative significand exponent =>
    max low (min high (signed negative (whole significand exponent)))

/-- Limits on the two sides of zero are kept, whatever the number is. -/
theorem Value.toIntWith_mem_range {whole : Nat → Int → Nat} {low high : Int} (hlow : low ≤ 0)
    (hhigh : 0 ≤ high) (x : Value) :
    low ≤ x.toIntWith whole low high ∧ x.toIntWith whole low high ≤ high := by
  cases x with
  | notANumber => exact ⟨hlow, hhigh⟩
  | infinite negative =>
    cases negative with
    | true => exact ⟨Int.le_refl low, Int.le_trans hlow hhigh⟩
    | false => exact ⟨Int.le_trans hlow hhigh, Int.le_refl high⟩
  | finite negative significand exponent =>
    rw [toIntWith]
    omega

end SampleStream.Binary
