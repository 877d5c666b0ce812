/-!
# Characters and lines of TOML

A reader takes what it knows from the front of a text and leaves the rest. The
readers of this module are those that all others are made of: blanks, comments,
ends of lines, and sequences with a separator. Lines end in a line feed; a
carriage return before it is taken away before anything is read.
-/

namespace SampleStream.Toml

/-- Takes a thing from the front of a text. -/
abbrev Reader (α : Type) := List Char → Option (α × List Char)

/-! ## Characters -/

/-- Whether a character is a blank within a line. -/
def isGap (c : Char) : Bool := c == ' ' || c == '\t'

/-- Whether a character may stand in comments and quoted text: no control
character but the tabulator. -/
def isPlain (c : Char) : Bool := c == '\t' || (0x20 ≤ c.toNat && c.toNat ≠ 0x7f)

/-- Whether a character is a hexadecimal digit. -/
def isHex (c : Char) : Bool :=
  c.isDigit || ('a' ≤ c && c ≤ 'f') || ('A' ≤ c && c ≤ 'F')

/-- The text with every line end written as one character. -/
def unifyLines : List Char → List Char
  | '\r' :: '\n' :: rest => '\n' :: unifyLines rest
  | c :: rest => c :: unifyLines rest
  | [] => []

/-! ## Blanks and comments -/

/-- The text after blanks. -/
def skipGaps (cs : List Char) : List Char := cs.dropWhile isGap

/-- The text after a comment, if there is one. -/
def skipComment : List Char → List Char
  | '#' :: rest => rest.dropWhile isPlain
  | cs => cs

/-- The text after the end of a line, with a comment before it if there is one.
The text may end instead of the line. -/
def endLine (cs : List Char) : Option (List Char) :=
  match skipComment (skipGaps cs) with
  | [] => some []
  | '\n' :: rest => some rest
  | _ => none

/-- The text after blanks, comments and line ends; `inComment` says that a comment
is under way. A comment has to end with its line. -/
def skipLinesFrom : Bool → List Char → Option (List Char)
  | inComment, [] => if inComment then none else some []
  | true, c :: rest =>
    if c = '\n' then skipLinesFrom false rest
    else if isPlain c then skipLinesFrom true rest
    else none
  | false, c :: rest =>
    if c = '#' then skipLinesFrom true rest
    else if isGap c || c == '\n' then skipLinesFrom false rest
    else some (c :: rest)

/-- The text after blanks, comments and line ends. -/
def skipLines (cs : List Char) : Option (List Char) := skipLinesFrom false cs

/-- The text after a word. -/
def word? (w : String) (cs : List Char) : Option (List Char) :=
  if w.toList.isPrefixOf cs then some (cs.drop w.length) else none

/-! ## Sequences -/

/-- Reads one or more items, but at most `limit`, with `sep` between them. A
separator that no item follows is left in the text. -/
def separated {α : Type} (item : Reader α) (sep : Char) : Nat → Reader (List α)
  | 0, _ => none
  | limit + 1, cs =>
    match item cs with
    | none => none
    | some (x, c :: rest) =>
      if c = sep then
        match separated item sep limit rest with
        | some (xs, rest) => some (x :: xs, rest)
        | none => some ([x], c :: rest)
      else some ([x], c :: rest)
    | some (x, []) => some ([x], [])

end SampleStream.Toml
