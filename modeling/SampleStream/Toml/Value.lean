import SampleStream.Toml.DateTime
import SampleStream.Toml.Node
import SampleStream.Toml.Number
import SampleStream.Toml.Text

/-!
# Reading values of TOML

The first character tells what kind of value begins. Arrays may go on over several
lines and end with a separator; tables in braces may not.
-/

namespace SampleStream.Toml

/-! ## Values without parts -/

/-- Reads a moment or a number. A moment is tried first, since it begins like an
integer. -/
def figure (cs : List Char) : Option (Scalar × List Char) :=
  match moment cs, real cs with
  | some rest, _ => some (.moment, rest)
  | none, some (x, rest) => some (.real x, rest)
  | none, none => (integer cs).map fun (z, rest) => (.integer z, rest)

/-- Reads a value that has no parts. -/
def scalar (cs : List Char) : Option (Scalar × List Char) := do
  let c ← cs.head?
  if c = '"' ∨ c = '\'' then
    let (s, rest) ← quoted cs
    return (.text s, rest)
  else if c = 't' then return (.boolean true, ← word? "true" cs)
  else if c = 'f' then return (.boolean false, ← word? "false" cs)
  else if c = 'i' ∨ c = 'n' ∨ c = '+' ∨ c = '-' ∨ c.isDigit then figure cs
  else none

/-! ## Arrays and tables in braces

The length of the whole text, `size`, bounds the number of items anywhere in it.
-/

/-- Reads an item of an array. -/
def arrayItem (value : Reader Node) (cs : List Char) : Option (Node × List Char) := do
  let (x, rest) ← value (← skipLines cs)
  return (x, ← skipLines rest)

/-- Reads an array after its opening bracket. -/
def arrayBody (size : Nat) (value : Reader Node) (cs : List Char) :
    Option (Node × List Char) := do
  let (items, rest) := match separated (arrayItem value) ',' size cs with
    | some (items, ',' :: rest) => (items, rest)
    | some (items, rest) => (items, rest)
    | none => ([], cs)
  match ← skipLines rest with
  | ']' :: rest => return (.array items, rest)
  | _ => none

/-- Reads a key and its value. -/
def pair (value : Reader Node) (cs : List Char) :
    Option ((List String × String × Node) × List Char) := do
  let ((path, key), rest) ← key cs
  match rest with
  | '=' :: rest =>
    let (x, rest) ← value (skipGaps rest)
    return ((path, key, x), rest)
  | _ => none

/-- Reads an item of a table in braces. -/
def tableItem (value : Reader Node) (cs : List Char) :
    Option ((List String × String × Node) × List Char) := do
  let (entry, rest) ← pair value cs
  return (entry, skipGaps rest)

/-- Reads a table after its opening brace. -/
def tableBody (size : Nat) (value : Reader Node) (cs : List Char) :
    Option (Node × List Char) := do
  let (items, rest) := (separated (tableItem value) ',' size cs).getD ([], cs)
  match skipGaps rest with
  | '}' :: rest =>
    let entries ← items.foldlM (fun entries (path, key, x) => Entries.add true path key x entries) []
    return (.table (.explicit true) entries, rest)
  | _ => none

/-- Reads a value with at most `depth` arrays and tables inside each other. -/
def valueWithin (size : Nat) : Nat → Reader Node
  | depth, '[' :: rest =>
    match depth with
    | 0 => none
    | depth + 1 => arrayBody size (valueWithin size depth) rest
  | depth, '{' :: rest =>
    match depth with
    | 0 => none
    | depth + 1 => tableBody size (valueWithin size depth) rest
  | _, cs => (scalar cs).map fun (v, rest) => (.scalar v, rest)

/-- Reads a value in a text of length `size`. -/
def value (size : Nat) : Reader Node := valueWithin size depthLimit

end SampleStream.Toml
