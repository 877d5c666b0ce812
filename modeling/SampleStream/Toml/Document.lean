import SampleStream.Toml.Value

/-!
# Documents of TOML

A document is a sequence of lines: blank ones, headers, and keys with values. A
header says to which table the keys after it belong; the keys before the first
header belong to the document itself.
-/

namespace SampleStream.Toml

/-- A header: the key of a table, or of a list of tables that gets one more. -/
structure Heading where
  path : List String
  key : String
  listed : Bool

/-- A document under way: what is complete, the table that keys go to now, and
the header of that table. -/
structure Draft where
  complete : Entries := []
  current : Entries := []
  heading : Option Heading := none

namespace Draft

/-- The document with the current table put where its header says. -/
def settle (d : Draft) : Option Entries :=
  match d.heading with
  | none => some d.current
  | some h => do
    let (complete, _) ← Entries.within false false (fun _ entries =>
      match h.listed, entries.lookup h.key with
      | true, some (.tables children) =>
        some (entries.replace h.key (.tables (children ++ [d.current])), ())
      | true, none => some (entries ++ [(h.key, .tables [d.current])], ())
      | false, none => some (entries ++ [(h.key, .table (.explicit false) d.current)], ())
      | _, _ => none) h.path (.explicit false) d.complete
    return complete

/-- Begins the table of a header. A table that so far was only passed through by
other headers goes on; any other of that name is in the way. A list of tables
gets a new one. -/
def begin (d : Draft) (h : Heading) : Option Draft := do
  let (complete, current) ← Entries.within false false (fun _ entries =>
    match h.listed, entries.lookup h.key with
    | true, none => some (entries ++ [(h.key, .tables [])], [])
    | true, some (.tables _) => some (entries, [])
    | false, none => some (entries, [])
    | false, some (.table form inner) =>
      if form.implicit && !form.dotted then some (entries.remove h.key, inner) else none
    | _, _ => none) h.path (.explicit false) (← d.settle)
  return { complete, current, heading := some h }

end Draft

/-! ## Lines -/

/-- Reads a header after its opening bracket. -/
def heading (cs : List Char) : Option (Heading × List Char) := do
  let listed := cs.head? = some '['
  let ((path, key), rest) ← key (if listed then cs.drop 1 else cs)
  let rest ← word? (if listed then "]]" else "]") rest
  return (⟨path, key, listed⟩, ← endLine rest)

/-- Reads one line that is not blank, in a text of length `size`. -/
def line (size : Nat) (d : Draft) (cs : List Char) : Option (Draft × List Char) :=
  match cs with
  | '[' :: rest => do
    let (h, rest) ← heading rest
    return (← d.begin h, rest)
  | cs => do
    let ((path, key, x), rest) ← pair (value size) cs
    return ({ d with current := ← Entries.add false path key x d.current }, ← endLine rest)

/-- Reads all lines of a text of length `size`, if there are at most `limit`. -/
def lines (size : Nat) : Nat → Draft → List Char → Option Draft
  | limit, d, cs =>
    match skipGaps cs, limit with
    | [], _ => some d
    | _, 0 => none
    | c :: more, limit + 1 =>
      if c = '#' ∨ c = '\n' then (endLine (c :: more)).bind (lines size limit d)
      else (line size d (c :: more)).bind fun (d, rest) => lines size limit d rest

/-- The table that a text spells. A mark of the byte order at its start is
skipped. No line and no item of a value is without a character, so that the
length of the text bounds their number. -/
def document? (text : String) : Option Entries := do
  let cs := match text.toList with
    | '\uFEFF' :: cs => cs
    | cs => cs
  let cs := unifyLines cs
  (← lines cs.length cs.length {} cs).settle

end SampleStream.Toml
