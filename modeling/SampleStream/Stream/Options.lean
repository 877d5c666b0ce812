import SampleStream.Stream.Error
import SampleStream.Text.Blank

/-!
# Options of streams

What a stream converts between, which device channels it serves, and further
settings by key. Settings may be given one by one or in a text of the form
`key=value,key=value`; a later setting of a key replaces an earlier one.
-/

namespace SampleStream

/-- Formats, channels and settings of a stream. No key is set twice. -/
structure StreamOptions where
  /-- Format of the samples on the host. -/
  hostFormat : String
  /-- Format of the samples on the wire, without the byte order. -/
  wireFormat : String
  /-- Device channel of each channel of the stream. -/
  channels : List Nat := [0]
  settings : List (String × String) := []
deriving DecidableEq, Repr

/-! ## Settings by key -/

/-- The settings with `key` set to `value`. -/
def setKey (key value : String) : List (String × String) → List (String × String)
  | [] => [(key, value)]
  | (k, v) :: rest =>
    if k = key then (key, value) :: rest else (k, v) :: setKey key value rest

theorem lookup_setKey (key value k : String) (settings : List (String × String)) :
    (setKey key value settings).lookup k =
      if k = key then some value else settings.lookup k := by
  induction settings with
  | nil =>
    by_cases h : k = key <;> simp [setKey, h]
  | cons entry rest ih =>
    obtain ⟨k', v'⟩ := entry
    by_cases hkey : k' = key
    · subst hkey
      by_cases h : k = k'
      · simp [setKey, h]
      · simp [setKey, List.lookup_cons, h, beq_eq_false_iff_ne.mpr h]
    · by_cases h : k = k'
      · subst h
        simp [setKey, hkey]
      · simp [setKey, List.lookup_cons, hkey, beq_eq_false_iff_ne.mpr h, ih]

namespace StreamOptions

/-- The options with one setting more. -/
def set (o : StreamOptions) (key value : String) : StreamOptions :=
  { o with settings := setKey key value o.settings }

/-- The value of a key. -/
def get? (o : StreamOptions) (key : String) : Option String := o.settings.lookup key

/-! ## Settings from a text -/

/-- The segments of an option text: the parts between commas, without blanks
around them, leaving out those where nothing remains. -/
def segments (text : String) : List (List Char) :=
  ((Text.split ',' text.toList).map Text.trim).filter (· ≠ [])

/-- The key and the value of a segment. Only the first equals sign counts, and
blanks around key and value do not. -/
def pair (segment : List Char) : Except OptionError (String × String) :=
  match Text.cut? '=' segment with
  | none => .error (.notAPair (String.ofList segment))
  | some (key, value) =>
    .ok (String.ofList (Text.trim key), String.ofList (Text.trim value))

/-- The options with the settings of a text, from left to right, up to the first
segment that is none. -/
def merge (o : StreamOptions) (text : String) : Except OptionError StreamOptions :=
  (segments text).foldlM
    (fun o segment => do
      let (key, value) ← pair segment
      return o.set key value) o

/-! ## Values of a kind -/

/-- The value of a key as `read` understands it, if the key is set. -/
def valueOf {α : Type} (o : StreamOptions) (read : String → Option α) (key : String) :
    Except OptionError (Option α) :=
  match o.get? key with
  | none => .ok none
  | some value =>
    match read value with
    | some x => .ok (some x)
    | none => .error (.badValue value key)

/-- The value of a key as a size. -/
def size? (o : StreamOptions) (key : String) : Except OptionError (Option Nat) :=
  o.valueOf (fun value => (Decimal.parseNat? value).bind fitSize) key

/-- The value of a key as an integer of 32 bits. -/
def int? (o : StreamOptions) (key : String) : Except OptionError (Option Int) :=
  o.valueOf (fun value => (Decimal.parseInt? value).filter fun z =>
    decide (-(2 ^ 31) ≤ z ∧ z < 2 ^ 31)) key

/-- The value of a key as a real number. -/
def real? (o : StreamOptions) (key : String) : Except OptionError (Option Float) :=
  o.valueOf Decimal.parseReal? key

/-! ## The settings that streams use -/

/-- The host value at which the wire format is at its peak. -/
def fullScale (o : StreamOptions) (default : Float) : Except OptionError Float :=
  return (← o.real? "fullscale").getD default

/-- The priority of the conversion, if one is asked for. -/
def priority (o : StreamOptions) : Except OptionError (Option Sample.Priority) :=
  o.int? "convert_priority"

/-- The order of the bytes on the link. -/
def byteOrder (o : StreamOptions) (default : ByteOrder) : Except OptionError ByteOrder :=
  match o.get? "byte_order" with
  | none => .ok default
  | some value =>
    match ByteOrder.ofSuffix? value with
    | some order => .ok order
    | none => .error (.unknownByteOrder value)

end StreamOptions
end SampleStream
