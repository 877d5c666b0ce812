import SampleStream.Number.Real

/-!
# Decimal numerals

Reading a decimal numeral as the nearest double-precision number, and writing
such a number either with the fewest digits that read back to it or with a
fixed number of places. Both directions work on the exact value
`significand * 2 ^ exponent` of the number.
-/

namespace SampleStream.Decimal

/-! ## Digits -/

/-- The decimal digits of `n`, most significant first. -/
def digits (n : Nat) : List Char := Nat.toDigits 10 n

/-- The number that digits in `base` spell; `'a'` and `'A'` stand for ten. -/
def ofDigits (base : Nat) (cs : List Char) : Nat :=
  cs.foldl (fun n c => base * n + digitValue c) 0
where
  /-- The value of one digit. -/
  digitValue (c : Char) : Nat :=
    if c.isDigit then c.toNat - '0'.toNat
    else if c.isUpper then c.toNat - 'A'.toNat + 10
    else c.toNat - 'a'.toNat + 10

/-- `text` with zeros in front until it has `width` characters. -/
def padLeft (width : Nat) (text : List Char) : List Char :=
  List.replicate (width - text.length) '0' ++ text

theorem ofDigits_append (base : Nat) (cs : List Char) (c : Char) :
    ofDigits base (cs ++ [c]) = base * ofDigits base cs + ofDigits.digitValue c := by
  simp [ofDigits]

theorem digitValue_digitChar {n : Nat} (h : n < 10) :
    ofDigits.digitValue (Nat.digitChar n) = n := by
  revert h
  revert n
  decide

/-- The digits of a number spell it. -/
theorem ofDigits_digits (n : Nat) : ofDigits 10 (digits n) = n := by
  induction n using Nat.strongRecOn with
  | _ n ih =>
    by_cases small : n < 10
    · rw [digits, Nat.toDigits_of_lt_base small, ← List.nil_append [_], ofDigits_append,
        digitValue_digitChar small]
      simp [ofDigits]
    · have shorter := ih (n / 10) (by omega)
      rw [digits] at shorter
      rw [digits, Nat.toDigits_of_base_le (by omega) (by omega), ofDigits_append, shorter,
        digitValue_digitChar (by omega)]
      omega

/-! ## Reading -/

/-- An unsigned numeral, standing for `coefficient * 10 ^ exponent`. -/
structure Numeral where
  coefficient : Nat
  exponent : Int
deriving DecidableEq, Repr

/-- The exponent part `e±digits`: nothing at all stands for zero. -/
def exponentPart? : List Char → Option Int
  | [] => some 0
  | mark :: rest =>
    if mark = 'e' ∨ mark = 'E' then
      let (negative, ds) := match rest with
        | '-' :: ds => (true, ds)
        | '+' :: ds => (false, ds)
        | ds => (false, ds)
      if ds ≠ [] ∧ ds.all Char.isDigit then
        some (Binary.signed negative (ofDigits 10 ds))
      else none
    else none

/-- Reads digits with an optional point among them and an optional exponent;
at least one digit is needed. -/
def Numeral.parse? (cs : List Char) : Option Numeral := do
  let whole := cs.takeWhile Char.isDigit
  let rest := cs.dropWhile Char.isDigit
  let (places, rest) := match rest with
    | '.' :: rest => (rest.takeWhile Char.isDigit, rest.dropWhile Char.isDigit)
    | rest => ([], rest)
  if whole = [] ∧ places = [] then none
  else
    let exponent ← exponentPart? rest
    some ⟨ofDigits 10 (whole ++ places), exponent - places.length⟩

/-- The number nearest to a numeral. The two early answers are beyond the
largest and below the smallest number, whatever the digits. -/
def Numeral.toReal (negative : Bool) (n : Numeral) : Float :=
  if n.coefficient = 0 ∨ n.exponent + n.coefficient.log2 + 1 < -330 then
    Real.ofRatio negative 0 1
  else if 310 < n.exponent then
    Real.ofValue (.infinite negative)
  else
    Real.ofRatio negative (n.coefficient * 10 ^ n.exponent.toNat) (10 ^ (-n.exponent).toNat)

/-- The names of values that are no numerals, in any letter case. -/
def special? (negative : Bool) (cs : List Char) : Option Float :=
  let name := String.ofList (cs.map Char.toLower)
  if name = "inf" ∨ name = "infinity" then some (Real.ofValue (.infinite negative))
  else if name = "nan" then some (Real.ofValue .notANumber)
  else none

/-- Reads a number: an optional sign, then a numeral or a special name. -/
def parseReal? (text : String) : Option Float :=
  let (negative, cs) := match text.toList with
    | '-' :: cs => (true, cs)
    | '+' :: cs => (false, cs)
    | cs => (false, cs)
  match Numeral.parse? cs with
  | some n => some (n.toReal negative)
  | none => special? negative cs

/-- Reads digits, with an optional plus sign, as a natural number. -/
def parseNat? (text : String) : Option Nat :=
  let ds := match text.toList with
    | '+' :: ds => ds
    | ds => ds
  if ds ≠ [] ∧ ds.all Char.isDigit then some (ofDigits 10 ds) else none

/-- Reads digits, with an optional sign, as an integer. -/
def parseInt? (text : String) : Option Int :=
  match text.toList with
  | '-' :: ds => if ds ≠ [] ∧ ds.all Char.isDigit then some (-(ofDigits 10 ds : Int)) else none
  | _ => (parseNat? text).map fun n => (n : Int)

/-! ## Writing -/

/-- Whether a decimal lies among the reals that round to
`significand * 2 ^ exponent`: between the midpoints to the two neighbours, which
themselves belong to an even significand. The gap below a power of two is half
as wide. Compared in quarters of the last place. -/
def readsBack (significand : Nat) (exponent : Int) (d : Numeral) : Bool :=
  let narrowBelow := significand == 2 ^ 52 && exponent != Binary.double.least
  let low := if narrowBelow then 4 * significand - 1 else 4 * significand - 2
  let high := 4 * significand + 2
  let quarter := exponent - 2
  let given := d.coefficient * 10 ^ d.exponent.toNat * 2 ^ (-quarter).toNat
  let unit := 2 ^ quarter.toNat * 10 ^ (-d.exponent).toNat
  if significand % 2 = 0 then low * unit ≤ given ∧ given ≤ high * unit
  else low * unit < given ∧ given < high * unit

/-- The least `k` with `significand * 2 ^ exponent < 10 ^ k`, for a positive
value: the digits of the value times `10 ^ 400`, which is above one for every
positive number, are counted. -/
def scale (significand : Nat) (exponent : Int) : Int :=
  let lifted := significand * 10 ^ 400 * 2 ^ exponent.toNat / 2 ^ (-exponent).toNat
  ((digits lifted).length : Int) - 400

/-- The decimal of `count` digits that reads back and is closest to the value,
the larger one of two that are equally close. Only the two neighbours of the
value on the grid of that many digits can be it. -/
def ofLength? (significand : Nat) (exponent : Int) (count : Nat) : Option Numeral :=
  let grid := scale significand exponent - count
  let num := significand * 2 ^ exponent.toNat * 10 ^ (-grid).toNat
  let den := 2 ^ (-exponent).toNat * 10 ^ grid.toNat
  let below : Numeral := ⟨num / den, grid⟩
  let above : Numeral := ⟨num / den + 1, grid⟩
  match readsBack significand exponent below, readsBack significand exponent above with
  | true, true => some (if 2 * num < (2 * (num / den) + 1) * den then below else above)
  | true, false => some below
  | false, true => some above
  | false, false => none

/-- The decimal with the fewest digits that reads back to a positive value.
Seventeen digits suffice; the exact value stands in should they not. -/
def shortest (significand : Nat) (exponent : Int) : Numeral :=
  ((List.range 17).findSome? fun k => ofLength? significand exponent (k + 1)).getD
    ⟨significand * 2 ^ exponent.toNat * 5 ^ (-exponent).toNat, -(-exponent).toNat⟩

/-- `coefficient * 10 ^ exponent` in positional notation: no trailing zeros after
the point, no point without places after it. -/
def Numeral.positional (n : Numeral) : String :=
  let ds := Decimal.digits n.coefficient
  let kept := (ds.reverse.dropWhile (· == '0')).reverse
  let exponent := n.exponent + (ds.length - kept.length : Nat)
  if 0 ≤ exponent then
    String.ofList (kept ++ List.replicate exponent.toNat '0')
  else
    let places := (-exponent).toNat
    let padded := padLeft (places + 1) kept
    String.ofList (padded.take (padded.length - places) ++ '.' ::
      padded.drop (padded.length - places))

/-- A finite value with `places` digits after the point, a tie going to the
even digit. -/
def fixed (places : Nat) (x : Float) : String :=
  match Real.value x with
  | .finite negative significand exponent =>
    let scaled := divHalfEven (significand * 2 ^ exponent.toNat * 10 ^ places)
      (2 ^ (-exponent).toNat)
    let padded := padLeft (places + 1) (digits scaled)
    let text := padded.take (padded.length - places) ++ '.' ::
      padded.drop (padded.length - places)
    String.ofList (if negative then '-' :: text else text)
  | .infinite negative => if negative then "-inf" else "inf"
  | .notANumber => "NaN"

end SampleStream.Decimal
