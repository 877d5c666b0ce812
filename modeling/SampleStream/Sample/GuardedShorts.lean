import SampleStream.Sample.Guarded

/-!
# 16-bit samples, every access checked

There are two ways from 16-bit wire samples to real ones. Both take the words of the run
as one slice and the room for its samples as another, but they find the end of that room
differently: the one that computes counts the bytes of the run, the one that looks up
goes by the position behind the last sample. A table is read at the two halves of a
word, and each half has to have an entry.
-/

namespace SampleStream.Sample

/-! ## Slices up to an end -/

/-- The bytes from `start` up to `stop`, which may not lie before it. -/
def upTo (data : Bytes) (start stop : Nat) : Guarded Bytes := do
  let length ← Guarded.difference stop start
  Guarded.bounded (slice data start length)

namespace Converter.Place

/-- The bytes of the wire words of a run. -/
def words (p : Place) (count : Nat) : Guarded Bytes := do
  let start ← Guarded.bounded (mulSize p.start 4)
  let length ← Guarded.bounded (mulSize count 4)
  let stop ← Guarded.bounded (addSize start length)
  upTo p.buffer start stop

/-- The first byte of the room for a run of real samples. The end of the room is found
from its size. -/
def roomBySize (p : Place) (precision : Precision) (count : Nat) : Guarded Nat := do
  let position ← Guarded.bounded (mulSize p.start precision.bytes)
  let start ← Guarded.bounded (mulSize position 2)
  let components ← Guarded.bounded (mulSize count precision.bytes)
  let length ← Guarded.bounded (mulSize components 2)
  let stop ← Guarded.bounded (addSize start length)
  let _ ← upTo p.buffer start stop
  return start

/-- The first byte of the room for a run of single-precision samples. The end of the room
is found from the position behind the last sample. -/
def roomByPosition (p : Place) (count : Nat) : Guarded Nat := do
  let start ← Guarded.bounded (mulSize p.start 8)
  let behind ← Guarded.bounded (addSize p.start count)
  let stop ← Guarded.bounded (mulSize behind 8)
  let _ ← upTo p.buffer start stop
  return start

end Converter.Place

/-! ## Tables -/

namespace Table

/-- The entry of a component, by its bits. -/
def entry (table : Table) (k : Nat) : Guarded UInt32 :=
  match table[k]? with
  | some bits => .ok bits
  | none => .error .bounds

/-- `store`, both halves of the word checked. -/
def storeGuarded (table : Table) (w : UInt32) : Guarded Bytes := do
  let i ← table.entry (w.toNat / 2 ^ 16)
  let q ← table.entry (w.toNat % 2 ^ 16)
  return ByteOrder.little.wordBytes i ++ ByteOrder.little.wordBytes q

end Table

/-! ## Converting -/

namespace Converter

/-- Converts 16-bit wire samples to real ones, computing each. -/
def unpackShortsGuarded (order : ByteOrder) (p : Precision) (scalar : Float)
    (source target : Place) (count : Nat) : Guarded Bytes := do
  let items ← source.words count
  let start ← target.roomBySize p count
  return splice target.buffer start <| (chunks 4 count items).flatMap fun bytes =>
    p.storeSample ((splitWord (order.word bytes)).scaled scalar)

/-- Converts 16-bit wire samples to single-precision ones by way of a table. -/
def lookUpGuarded (order : ByteOrder) (table : Table) (source target : Place) (count : Nat) :
    Guarded Bytes := do
  let items ← source.words count
  let start ← target.roomByPosition count
  let samples ← (chunks 4 count items).mapM fun bytes => table.storeGuarded (order.word bytes)
  return splice target.buffer start samples.flatten

/-- `convertGuarded`, every access of the conversions of 16-bit samples to real ones
checked as well. -/
def convertStepwise (c : Converter) (source target : Place) (count : Nat) : Guarded Bytes :=
  match c with
  | .scaled (.unpackShorts order (.real p)) scalar =>
    unpackShortsGuarded order p scalar source target count
  | .tabled order table => lookUpGuarded order table.get source target count
  | c => c.convertGuarded source target count

end Converter
end SampleStream.Sample
