import SampleStream.Number.Decimal
import SampleStream.Toml.Lexical

/-!
# Dates and times of TOML

A date, a time of day, or both with an offset from universal time if one is given.
The settings of streams have no use for a moment, so that it only matters whether
a text is one.
-/

namespace SampleStream.Toml

/-- Reads a number of exactly `count` digits within bounds. -/
def field (count low high : Nat) (cs : List Char) : Option (Nat × List Char) :=
  let ds := cs.take count
  let n := Decimal.ofDigits 10 ds
  if ds.length = count ∧ ds.all Char.isDigit ∧ low ≤ n ∧ n ≤ high then some (n, cs.drop count)
  else none

/-- Reads one character. -/
def mark (isMark : Char → Bool) : List Char → Option (List Char)
  | c :: rest => if isMark c then some rest else none
  | [] => none

/-- The days of a month. -/
def daysOf (year month : Nat) : Nat :=
  if month = 2 then
    if year % 4 = 0 ∧ (year % 100 ≠ 0 ∨ year % 400 = 0) then 29 else 28
  else if month = 4 ∨ month = 6 ∨ month = 9 ∨ month = 11 then 30
  else 31

/-- The text after a date. -/
def date (cs : List Char) : Option (List Char) := do
  let (year, rest) ← field 4 0 9999 cs
  let (month, rest) ← field 2 1 12 (← mark (· == '-') rest)
  let (_, rest) ← field 2 1 (daysOf year month) (← mark (· == '-') rest)
  return rest

/-- The text after a time of day. A minute may have a leap second. -/
def timeOfDay (cs : List Char) : Option (List Char) := do
  let (_, rest) ← field 2 0 23 cs
  let (_, rest) ← field 2 0 59 (← mark (· == ':') rest)
  let (_, rest) ← field 2 0 60 (← mark (· == ':') rest)
  match rest with
  | '.' :: d :: more => if d.isDigit then return more.dropWhile Char.isDigit else none
  | rest => return rest

/-- The text after an offset from universal time. -/
def offset (cs : List Char) : Option (List Char) :=
  match mark (fun c => c == 'Z' || c == 'z') cs with
  | some rest => some rest
  | none => do
    let (_, rest) ← field 2 0 23 (← mark (fun c => c == '+' || c == '-') cs)
    let (_, rest) ← field 2 0 59 (← mark (· == ':') rest)
    return rest

/-- The text after a time of day and perhaps an offset. -/
def timeWithOffset (cs : List Char) : Option (List Char) := do
  let rest ← timeOfDay cs
  return (offset rest).getD rest

/-- The text after a moment: a date, perhaps with a time, or a time of day. -/
def moment (cs : List Char) : Option (List Char) :=
  match date cs with
  | none => timeOfDay cs
  | some rest =>
    match mark (fun c => c == 'T' || c == 't' || c == ' ') rest with
    | none => some rest
    | some later => some ((timeWithOffset later).getD rest)

end SampleStream.Toml
