import SampleStream.Number.Decimal
import SampleStream.Toml.Lexical

/-!
# Quoted text and keys of TOML

Text stands in double quotes, where a backslash begins an escape, or in single
quotes, where nothing does. Three quotes instead of one let it go on over several
lines. A key is a sequence of bare words and quoted texts with dots between them.
-/

namespace SampleStream.Toml

/-! ## Escapes -/

/-- The character with a hexadecimal number. -/
def codePoint? (ds : List Char) : Option Char :=
  let n := Decimal.ofDigits 16 ds
  if ds.all isHex && (n < 0xd800 || (0xdfff < n && n < 0x110000)) then some (Char.ofNat n)
  else none

/-- The character that a letter after a backslash stands for. -/
def escaped? : Char → Option Char
  | 'b' => some '\x08'
  | 't' => some '\t'
  | 'n' => some '\n'
  | 'f' => some '\x0c'
  | 'r' => some '\x0d'
  | '"' => some '"'
  | '\\' => some '\\'
  | _ => none

/-- A character in front of what is read. -/
def push (c : Char) : Option (List Char × List Char) → Option (List Char × List Char)
  | some (cs, rest) => some (c :: cs, rest)
  | none => none

/-! ## Text on one line -/

/-- Reads text up to the closing double quote. -/
def quotedBody : Reader (List Char)
  | [] => none
  | '"' :: rest => some ([], rest)
  | '\\' :: 'u' :: a :: b :: c :: d :: rest => do
    push (← codePoint? [a, b, c, d]) (quotedBody rest)
  | '\\' :: 'U' :: a :: b :: c :: d :: e :: f :: g :: h :: rest => do
    push (← codePoint? [a, b, c, d, e, f, g, h]) (quotedBody rest)
  | '\\' :: c :: rest => do push (← escaped? c) (quotedBody rest)
  | c :: rest => if isPlain c then push c (quotedBody rest) else none

/-- Reads text up to the closing single quote. -/
def literalBody : Reader (List Char)
  | [] => none
  | '\'' :: rest => some ([], rest)
  | c :: rest => if isPlain c then push c (literalBody rest) else none

/-! ## Text on several lines -/

/-- Reads text up to three double quotes; one or two more before them belong to
the text. A backslash at the end of a line takes away all blanks and line ends up
to the next character, which `skipping` says is under way. -/
def quotedLines : Bool → List Char → Option (List Char × List Char)
  | _, [] => none
  | _, '"' :: '"' :: '"' :: '"' :: '"' :: rest => some (['"', '"'], rest)
  | _, '"' :: '"' :: '"' :: '"' :: rest => some (['"'], rest)
  | _, '"' :: '"' :: '"' :: rest => some ([], rest)
  | _, '\\' :: 'u' :: a :: b :: c :: d :: rest => do
    push (← codePoint? [a, b, c, d]) (quotedLines false rest)
  | _, '\\' :: 'U' :: a :: b :: c :: d :: e :: f :: g :: h :: rest => do
    push (← codePoint? [a, b, c, d, e, f, g, h]) (quotedLines false rest)
  | _, '\\' :: c :: rest =>
    if isGap c || c == '\n' then
      if (skipGaps (c :: rest)).head? = some '\n' then quotedLines true rest else none
    else do push (← escaped? c) (quotedLines false rest)
  | skipping, c :: rest =>
    if skipping && (isGap c || c == '\n') then quotedLines true rest
    else if isPlain c || c == '\n' then push c (quotedLines false rest)
    else none

/-- Reads text up to three single quotes; one or two more before them belong to
the text. -/
def literalLines : Reader (List Char)
  | [] => none
  | '\'' :: '\'' :: '\'' :: '\'' :: '\'' :: rest => some (['\'', '\''], rest)
  | '\'' :: '\'' :: '\'' :: '\'' :: rest => some (['\''], rest)
  | '\'' :: '\'' :: '\'' :: rest => some ([], rest)
  | c :: rest => if isPlain c || c == '\n' then push c (literalLines rest) else none

/-- The text without a line end at its start. -/
def skipFirstLineEnd : List Char → List Char
  | '\n' :: rest => rest
  | cs => cs

/-- Reads quoted text of any form. -/
def quoted (cs : List Char) : Option (String × List Char) := do
  let (body, rest) ← match cs with
    | '"' :: '"' :: '"' :: rest => quotedLines false (skipFirstLineEnd rest)
    | '\'' :: '\'' :: '\'' :: rest => literalLines (skipFirstLineEnd rest)
    | '"' :: rest => quotedBody rest
    | '\'' :: rest => literalBody rest
    | _ => none
  return (String.ofList body, rest)

/-! ## Keys -/

/-- Keys and nested values go at most this deep. -/
def depthLimit : Nat := 79

/-- Whether a character may stand in a key without quotes. -/
def isBare (c : Char) : Bool := c.isAlphanum || c == '-' || c == '_'

/-- Reads one part of a key. -/
def keyPart (cs : List Char) : Option (String × List Char) := do
  let (part, rest) ← match skipGaps cs with
    | '"' :: rest => quotedBody rest
    | '\'' :: rest => literalBody rest
    | cs =>
      let bare := cs.takeWhile isBare
      if bare = [] then none else some (bare, cs.dropWhile isBare)
  return (String.ofList part, skipGaps rest)

/-- Reads a key: the parts before the last one, and the last. One part too many
is enough to see that a key goes too deep. -/
def key (cs : List Char) : Option ((List String × String) × List Char) := do
  let (parts, rest) ← separated keyPart '.' (depthLimit + 1) cs
  if depthLimit < parts.length then none
  return ((parts.dropLast, ← parts.getLast?), rest)

end SampleStream.Toml
