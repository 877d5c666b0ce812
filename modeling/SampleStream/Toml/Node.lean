/-!
# Values and tables of TOML

A document is a table of values by key. Tables come about in several ways, and
what may still be added to a table depends on the way: a table that was written
out is closed to dotted keys from elsewhere, one that was only passed through by
a key may still be written out once.
-/

namespace SampleStream.Toml

/-- A value that has no parts. -/
inductive Scalar where
  | text (s : String)
  | integer (z : Int)
  | real (x : Float)
  | boolean (b : Bool)
  /-- A date, a time, or both. -/
  | moment

/-- How a table came about. -/
structure Form where
  /-- In braces, rather than under a header. -/
  inBraces : Bool
  /-- Passed through by a key or header, and not written out itself. -/
  implicit : Bool
  /-- Made by a dotted key. -/
  dotted : Bool
deriving DecidableEq

/-- A table that is written out, in braces or under a header. -/
def Form.explicit (inBraces : Bool) : Form := ⟨inBraces, false, false⟩

/-- A value. -/
inductive Node where
  | scalar (v : Scalar)
  | array (items : List Node)
  | table (form : Form) (entries : List (String × Node))
  /-- The tables under headers in double brackets, in order. -/
  | tables (children : List (List (String × Node)))

/-- Values by key, in the order in which they were added. No key occurs twice. -/
abbrev Entries := List (String × Node)

namespace Entries

/-- The entries with the value of a key replaced. -/
def replace (key : String) (value : Node) (entries : Entries) : Entries :=
  entries.map fun (k, v) => if k = key then (k, value) else (k, v)

/-- The entries without a key. -/
def remove (key : String) (entries : Entries) : Entries :=
  entries.filter fun (k, _) => k ≠ key

/-- Goes down `path` from a table of the given form and changes the table there by
`f`. Tables missing on the way are made; `dotted` says that a dotted key and no
header goes there, to which tables that are written out are closed. A list of
tables stands for the last of them. -/
def within {β : Type} (inBraces dotted : Bool) (f : Form → Entries → Option (Entries × β)) :
    List String → Form → Entries → Option (Entries × β)
  | [], form, entries => f form entries
  | key :: path, _, entries =>
    match entries.lookup key with
    | none => do
      let form : Form := ⟨inBraces, true, dotted⟩
      let (inner, b) ← within inBraces dotted f path form []
      return (entries ++ [(key, .table form inner)], b)
    | some (.table form inner) => do
      if form.inBraces ≠ inBraces ∨ (dotted ∧ !form.implicit) then none
      let (inner, b) ← within inBraces dotted f path form inner
      return (entries.replace key (.table form inner), b)
    | some (.tables children) => do
      let last ← children.getLast?
      let (last, b) ← within inBraces dotted f path (.explicit false) last
      return (entries.replace key (.tables (children.dropLast ++ [last])), b)
    | some _ => none

/-- Adds a value under a key whose leading parts are `path`. Only dotted keys may
add to the tables of dotted keys, and no key may be used twice. -/
def add (inBraces : Bool) (path : List String) (key : String) (value : Node)
    (entries : Entries) : Option Entries := do
  let (entries, _) ← within inBraces true (fun form entries =>
    if form.dotted = path.isEmpty ∨ (entries.lookup key).isSome then none
    else some (entries ++ [(key, value)], ())) path (.explicit inBraces) entries
  return entries

end Entries
end SampleStream.Toml
