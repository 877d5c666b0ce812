import SampleStream.Sample.Converter

/-!
# The registry of conversions

Conversions are found by the formats and buffer counts of both sides, and among
several for the same formats by priority: the one that is asked for, or else the
greatest. Item sizes are found by format tag; a compound tag falls back to its
prefixes.
-/

namespace SampleStream.Sample

/-- Identifies a conversion: format and buffer count of each side. -/
structure ConversionId where
  source : String
  sources : Nat
  target : String
  targets : Nat
deriving DecidableEq, Repr

namespace ConversionId

/-- A conversion from one buffer to one buffer. -/
def single (source target : String) : ConversionId := ⟨source, 1, target, 1⟩

/-- The identifier on one line. -/
def text (id : ConversionId) : String :=
  id.source ++ " (" ++ toString id.sources ++ ") -> " ++
    id.target ++ " (" ++ toString id.targets ++ ")"

/-- The identifier with one line for each part. -/
def description (id : ConversionId) : String :=
  "conversion ID\n  Input format:  " ++ id.source ++
    "\n  Num inputs:    " ++ toString id.sources ++
    "\n  Output format: " ++ id.target ++
    "\n  Num outputs:   " ++ toString id.targets ++ "\n"

end ConversionId

/-! ## Priorities -/

/-- Greater priorities win when none is asked for. -/
abbrev Priority := Int

/-- Conversions computed sample by sample. -/
def generalPriority : Priority := 0

/-- Conversions by way of a table. -/
def tablePriority : Priority := 3

/-! ## Errors -/

/-- Why a look-up failed. -/
inductive LookupError where
  /-- Nothing is registered for the identifier. -/
  | noConverter (id : ConversionId)
  /-- Nothing is registered for the identifier at the priority. -/
  | noConverterAt (id : ConversionId) (priority : Priority)
  /-- No prefix of the tag has a size. -/
  | unknownItemSize (tag : String)
deriving DecidableEq, Repr

/-- The text of a look-up error. -/
def LookupError.message : LookupError → String
  | noConverter id => "Cannot find a conversion routine for " ++ id.text
  | noConverterAt id priority =>
    "Cannot find a conversion routine with priority " ++ toString priority ++
      " for " ++ id.text
  | unknownItemSize tag => "Cannot find an item size: " ++ tag

/-! ## Entries in order of priority -/

/-- Entries with strictly increasing priorities. -/
abbrev Ranked (κ : Type) := List (Priority × κ)

variable {κ : Type}

/-- Puts an entry at a priority, in place of the one that is there. -/
def Ranked.insert (priority : Priority) (entry : κ) : Ranked κ → Ranked κ
  | [] => [(priority, entry)]
  | (p, e) :: rest =>
    if priority < p then (priority, entry) :: (p, e) :: rest
    else if priority = p then (priority, entry) :: rest
    else (p, e) :: Ranked.insert priority entry rest

/-! ## The registry -/

/-- What is registered: entries by identifier and priority, sizes by tag. -/
structure Registry (κ : Type) where
  conversions : List (ConversionId × Ranked κ)
  sizes : List (String × Nat)

namespace Registry

/-- Nothing registered. -/
def empty : Registry κ := ⟨[], []⟩

/-- The registry with every entry replaced by its image. -/
def map {μ : Type} (f : κ → μ) (r : Registry κ) : Registry μ :=
  ⟨r.conversions.map fun (id, ranked) => (id, ranked.map fun (p, entry) => (p, f entry)), r.sizes⟩

/-- The entries of an identifier, by increasing priority. -/
def entries (r : Registry κ) (id : ConversionId) : Ranked κ :=
  (r.conversions.lookup id).getD []

/-- Registers an entry for an identifier at a priority, in place of an earlier
one there. -/
def register (r : Registry κ) (id : ConversionId) (entry : κ) (priority : Priority) :
    Registry κ :=
  { r with
    conversions := (id, (r.entries id).insert priority entry) ::
      r.conversions.filter (·.1 ≠ id) }

/-- The entry for an identifier: at the priority that is asked for, or else the
one of greatest priority. -/
def find (r : Registry κ) (id : ConversionId) (priority : Option Priority) :
    Except LookupError κ :=
  match (r.entries id).getLast? with
  | none => .error (.noConverter id)
  | some (_, greatest) =>
    match priority with
    | none => .ok greatest
    | some p =>
      match (r.entries id).lookup p with
      | some entry => .ok entry
      | none => .error (.noConverterAt id p)

/-- The priorities registered for an identifier, ascending. -/
def priorities (r : Registry κ) (id : ConversionId) : List Priority :=
  (r.entries id).map (·.1)

/-! ## Item sizes -/

/-- Sets the size of the items of a format. -/
def setSize (r : Registry κ) (tag : String) (size : Nat) : Registry κ :=
  { r with sizes := (tag, size) :: r.sizes.filter (·.1 ≠ tag) }

/-- The parts of a text, given backwards, that stand before its underscores,
longest first and backwards as well. -/
def beforeUnderscores : List Char → List (List Char)
  | [] => []
  | c :: rest =>
    if c = '_' then rest :: beforeUnderscores rest else beforeUnderscores rest

/-- A tag and its prefixes up to an underscore, longest first. -/
def prefixes (tag : String) : List String :=
  let reversed := tag.toList.reverse
  (reversed :: beforeUnderscores reversed).map fun cs => String.ofList cs.reverse

/-- Bytes of an item of a format: the size set for the longest prefix of the tag
that has one. -/
def itemSize (r : Registry κ) (tag : String) : Except LookupError Nat :=
  match (prefixes tag).findSome? (fun t => r.sizes.lookup t) with
  | some size => .ok size
  | none => .error (.unknownItemSize tag)

end Registry

/-! ## The standard registry -/

/-- Sizes of the standard formats: complex, real, and the word. -/
def standardSizes : List (String × Nat) :=
  [("fc64", 16), ("fc32", 8), ("sc64", 16), ("sc32", 8), ("sc16", 4), ("sc8", 2),
    ("f64", 8), ("f32", 4), ("s64", 8), ("s32", 4), ("s16", 2), ("s8", 1), ("u8", 1),
    ("item32", 4), ("sc12", 3)]

/-- The conversions of one byte order: 16-bit wire samples to and from each host
format, packed samples to and from the real ones, and the table. -/
def standardConversions (order : ByteOrder) : List (ConversionId × Method × Priority) :=
  let shorts := wireTag "sc16" order
  let packed := wireTag "sc12" order
  let general (source target : String) (routine : Routine) :=
    (ConversionId.single source target, Method.compute routine, generalPriority)
  [general shorts "fc32" (.unpackShorts order (.real .single)),
    general shorts "fc64" (.unpackShorts order (.real .double)),
    general "fc32" shorts (.packShorts order (.real .single)),
    general "fc64" shorts (.packShorts order (.real .double)),
    general shorts "sc16" (.unpackShorts order .shorts),
    general "sc16" shorts (.packShorts order .shorts),
    general packed "fc32" (.unpackBlocks order .single),
    general packed "fc64" (.unpackBlocks order .double),
    general "fc32" packed (.packBlocks order .single),
    general "fc64" packed (.packBlocks order .double),
    (.single shorts "fc32", .lookUp order, tablePriority)]

/-- The registry of the standard formats and conversions. -/
def standardRegistry : Registry Method :=
  let sized := standardSizes.foldl (fun r (tag, size) => r.setSize tag size) Registry.empty
  (standardConversions .big ++ standardConversions .little).foldl
    (fun r (id, method, priority) => r.register id method priority) sized

end SampleStream.Sample
