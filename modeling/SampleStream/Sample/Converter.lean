import SampleStream.Sample.Packed

/-!
# Converters

A converter moves samples between a wire buffer and a host buffer, or the other
way, from one sample position to another. It carries at most a scaling factor, or
a table made from one. Converting reads and writes exactly the samples that it is
asked for; a buffer that does not hold them is a fault.
-/

namespace SampleStream.Sample

/-! ## Routines -/

/-- The host side of a routine for 16-bit wire samples. -/
inductive HostFormat where
  /-- Real components. -/
  | real (precision : Precision)
  /-- 16-bit integers, copied without scaling. -/
  | shorts
deriving DecidableEq, Repr

/-- The ways to compute a conversion. -/
inductive Routine where
  /-- 16-bit wire samples to host samples. -/
  | unpackShorts (order : ByteOrder) (host : HostFormat)
  /-- Host samples to 16-bit wire samples. -/
  | packShorts (order : ByteOrder) (host : HostFormat)
  /-- Packed 12-bit wire samples to real host samples. -/
  | unpackBlocks (order : ByteOrder) (precision : Precision)
  /-- Real host samples to packed 12-bit wire samples. -/
  | packBlocks (order : ByteOrder) (precision : Precision)
deriving DecidableEq, Repr

/-- How a conversion is carried out. -/
inductive Method where
  /-- Sample by sample. -/
  | compute (routine : Routine)
  /-- From 16-bit wire samples to single precision, by way of a table. -/
  | lookUp (order : ByteOrder)
deriving DecidableEq, Repr

/-! ## Samples in words -/

/-- The sample in a word, in-phase component in the upper half. -/
def splitWord (w : UInt32) : IQ Int16 :=
  ⟨Int16.ofNat (w.toNat / 2 ^ 16), Int16.ofNat (w.toNat % 2 ^ 16)⟩

/-- The word of a sample. -/
def joinWord (s : IQ Int16) : UInt32 :=
  UInt32.ofNat (s.i.toUInt16.toNat * 2 ^ 16 + s.q.toUInt16.toNat)

/-- The bytes of a host sample made from a 16-bit one. -/
def HostFormat.store (host : HostFormat) (scalar : Float) (s : IQ Int16) : Bytes :=
  match host with
  | .real p => p.storeSample (s.scaled scalar)
  | .shorts => storeShorts s

/-- The 16-bit sample made from the bytes of a host sample. -/
def HostFormat.load (host : HostFormat) (scalar : Float) (bytes : Bytes) : IQ Int16 :=
  match host with
  | .real p => (p.loadSample bytes).quantized 16 scalar
  | .shorts => loadShorts bytes

/-- Bytes of a host sample. -/
def HostFormat.bytes : HostFormat → Nat
  | .real p => p.sampleBytes
  | .shorts => 4

/-! ## Tables -/

/-- Scaled single-precision components, by the bits of the 16-bit component. -/
abbrev Table := Array UInt32

/-- The table for a scalar: one entry for each of the `2 ^ 16` components. -/
def makeTable (scalar : Float) : Table :=
  Array.ofFn fun k : Fin (2 ^ 16) =>
    UInt32.ofNat (Real.narrow (Real.ofInt (Int16.ofNat k.val).toInt * scalar))

/-- The bytes of the sample in a word, both components looked up. -/
def Table.store (table : Table) (w : UInt32) : Bytes :=
  let entry (k : Nat) := ByteOrder.little.wordBytes (table.getD k 0)
  entry (w.toNat / 2 ^ 16) ++ entry (w.toNat % 2 ^ 16)

/-! ## Converters -/

/-- A routine with its scaling factor, or with the table made from it. The table
is computed when it is first used. -/
inductive Converter where
  | scaled (routine : Routine) (scalar : Float)
  | tabled (order : ByteOrder) (table : Thunk Table)

namespace Converter

/-- The table converter for a scalar. -/
def ofTable (order : ByteOrder) (scalar : Float) : Converter :=
  .tabled order (Thunk.mk fun _ => makeTable scalar)

/-- A new converter. Routines for 16-bit samples start with factor one, those for
packed samples with factor zero. -/
def start : Method → Converter
  | .lookUp order => ofTable order (Real.ofNat 1)
  | .compute (.unpackBlocks order p) => .scaled (.unpackBlocks order p) (Real.ofNat 0)
  | .compute (.packBlocks order p) => .scaled (.packBlocks order p) (Real.ofNat 0)
  | .compute routine => .scaled routine (Real.ofNat 1)

/-- The converter with another scaling factor. Unpacked lanes are sixteen times
their components, for which the factor of unpacking makes up. -/
def setScalar (c : Converter) (scalar : Float) : Converter :=
  match c with
  | .tabled order _ => ofTable order scalar
  | .scaled (.unpackBlocks order p) _ =>
    .scaled (.unpackBlocks order p) (scalar / Real.ofNat Block.growth)
  | .scaled routine _ => .scaled routine scalar

/-! ## Converting -/

/-- Where a conversion reads or writes: a buffer, and the position of its first
sample there. A packed buffer starts at a block. -/
structure Place where
  buffer : Bytes
  start : Nat

/-- The bytes of `count` items of `size` bytes from a place on. -/
def Place.items (p : Place) (size count : Nat) : Checked Bytes := do
  slice p.buffer (← mulSize p.start size) (← mulSize count size)

/-- The buffer with `new` written over items of `size` bytes from the place on. -/
def Place.store (p : Place) (size : Nat) (new : Bytes) : Bytes :=
  splice p.buffer (p.start * size) new

/-- Converts item by item: `count` items of `inSize` bytes each become items of
`outSize` bytes by `f`. -/
def eachItem (inSize outSize : Nat) (f : Bytes → Bytes) (source target : Place) (count : Nat) :
    Checked Bytes := do
  let items ← source.items inSize count
  let _ ← target.items outSize count
  return target.store outSize ((chunks inSize count items).flatMap f)

/-- Converts packed samples to real ones. -/
def unpackRun (order : ByteOrder) (p : Precision) (scalar : Float) (source target : Place)
    (count : Nat) : Checked Bytes := do
  if count = 0 then return target.buffer
  let _ ← target.items p.sampleBytes count
  let lanes ← Packed.read order source.buffer ⟨source.start, count⟩
  return target.store p.sampleBytes (lanes.flatMap fun lane => p.storeSample (lane.scaled scalar))

/-- Converts real samples to packed ones. -/
def packRun (order : ByteOrder) (p : Precision) (scalar : Float) (source target : Place)
    (count : Nat) : Checked Bytes := do
  if count = 0 then return target.buffer
  let items ← source.items p.sampleBytes count
  let samples := (chunks p.sampleBytes count items).map fun bytes =>
    (p.loadSample bytes).quantized 12 scalar
  Packed.write order target.buffer target.start samples

/-- Converts `count` samples from `source` to `target`: the buffer of `target`
with the samples in it. -/
def convert (c : Converter) (source target : Place) (count : Nat) : Checked Bytes :=
  match c with
  | .scaled (.unpackShorts order host) scalar =>
    eachItem 4 host.bytes (fun bytes => host.store scalar (splitWord (order.word bytes)))
      source target count
  | .scaled (.packShorts order host) scalar =>
    eachItem host.bytes 4 (fun bytes => order.wordBytes (joinWord (host.load scalar bytes)))
      source target count
  | .tabled order table =>
    eachItem 4 8 (fun bytes => table.get.store (order.word bytes)) source target count
  | .scaled (.unpackBlocks order p) scalar => unpackRun order p scalar source target count
  | .scaled (.packBlocks order p) scalar => packRun order p scalar source target count

end Converter
end SampleStream.Sample
