import SampleStream.Checked
import SampleStream.Toml.Lexical
import SampleStream.Number.Decimal

/-!
# Numbers of TOML

Integers are decimal with a sign, or unsigned in another base; real numbers have
a fraction or an exponent, or are one of the special values. An underscore may
stand between two digits.
-/

namespace SampleStream.Toml

/-! ## Digits -/

/-- Digits with underscores between them, and the text after them. -/
def moreDigits (isDigit : Char → Bool) : List Char → List Char × List Char
  | [] => ([], [])
  | '_' :: d :: rest =>
    if isDigit d then
      let (ds, rest) := moreDigits isDigit rest
      (d :: ds, rest)
    else ([], '_' :: d :: rest)
  | c :: rest =>
    if isDigit c then
      let (ds, rest) := moreDigits isDigit rest
      (c :: ds, rest)
    else ([], c :: rest)

/-- Reads at least one digit. -/
def someDigits (isDigit : Char → Bool) : Reader (List Char)
  | [] => none
  | c :: rest =>
    if isDigit c then
      let (ds, rest) := moreDigits isDigit rest
      some (c :: ds, rest)
    else none

/-- Takes a sign away, if there is one; whether it is a minus. -/
def sign : List Char → Bool × List Char
  | '-' :: rest => (true, rest)
  | '+' :: rest => (false, rest)
  | cs => (false, cs)

/-- Reads a decimal integer with a sign. Zero is the only one that begins with a
zero. -/
def wholeNumber (cs : List Char) : Option ((Bool × List Char) × List Char) :=
  let (negative, cs) := sign cs
  match cs with
  | '0' :: rest => some ((negative, ['0']), rest)
  | cs => (someDigits Char.isDigit cs).map fun (ds, rest) => ((negative, ds), rest)

/-! ## Integers -/

/-- The integer that digits spell. -/
def signedDigits (negative : Bool) (ds : List Char) : Int :=
  let n : Int := Decimal.ofDigits 10 ds
  if negative then -n else n

/-- Reads an unsigned integer in a base. -/
def inBase (base : Nat) (isDigit : Char → Bool) (cs : List Char) : Option (Int × List Char) :=
  (someDigits isDigit cs).map fun (ds, rest) => ((Decimal.ofDigits base ds : Int), rest)

/-- Reads an integer of any size. -/
def anyInteger : Reader Int
  | '0' :: 'x' :: rest => inBase 16 isHex rest
  | '0' :: 'o' :: rest => inBase 8 (fun c => '0' ≤ c && c ≤ '7') rest
  | '0' :: 'b' :: rest => inBase 2 (fun c => c == '0' || c == '1') rest
  | cs => (wholeNumber cs).map fun ((negative, ds), rest) => (signedDigits negative ds, rest)

/-- Reads an integer of 64 bits with a sign. -/
def integer (cs : List Char) : Option (Int × List Char) := do
  let (z, rest) ← anyInteger cs
  return (← fitSigned z, rest)

/-! ## Real numbers -/

/-- Reads the places after a point. -/
def places : Reader (List Char)
  | '.' :: rest => someDigits Char.isDigit rest
  | _ => none

/-- Reads an exponent. -/
def exponent : Reader Int
  | c :: rest =>
    if c = 'e' ∨ c = 'E' then do
      let (negative, rest) := sign rest
      let (ds, rest) ← someDigits Char.isDigit rest
      return (signedDigits negative ds, rest)
    else none
  | [] => none

/-- Reads a numeral with a fraction, an exponent, or both. One above all doubles
is refused. -/
def numeral (cs : List Char) : Option (Float × List Char) := do
  let ((negative, whole), rest) ← wholeNumber cs
  let (fraction, power, rest) ← match places rest with
    | some (fraction, rest) =>
      match exponent rest with
      | some (power, rest) => some (fraction, power, rest)
      | none => some (fraction, 0, rest)
    | none => (exponent rest).map fun (power, rest) => ([], power, rest)
  let n : Decimal.Numeral :=
    ⟨Decimal.ofDigits 10 (whole ++ fraction), power - fraction.length⟩
  let x := n.toReal negative
  match Real.value x with
  | .infinite false => none
  | _ => return (x, rest)

/-- Reads a special value. -/
def special (cs : List Char) : Option (Float × List Char) :=
  let (negative, cs) := sign cs
  match word? "inf" cs, word? "nan" cs with
  | some rest, _ => some (Real.ofValue (.infinite negative), rest)
  | _, some rest => some (Real.ofValue .notANumber, rest)
  | none, none => none

/-- Reads a real number. -/
def real (cs : List Char) : Option (Float × List Char) :=
  match numeral cs with
  | some read => some read
  | none => special cs

end SampleStream.Toml
