import SampleStream.Guarded
import SampleStream.Sample.Converter

/-!
# Packed samples, every access checked

Packed samples are converted in three parts: the rest of a block that the run starts
in, whole blocks, and the front of a block that the run ends in. The words of the
blocks at either end may lie past the buffer, those of whole blocks may not. Every
sample that is unpacked is written to a slice of its own, every word of a block that
is patched to its place.
-/

namespace SampleStream.Sample

namespace Packed

/-- The lanes of one block. Bytes that are missing count as zero, but the positions of
its words have to be sizes. -/
def blockIn (order : ByteOrder) (data : Bytes) (block : Nat) : Guarded (List (IQ Int16)) := do
  let base ← Guarded.bounded (mulSize block Block.bytes)
  let _ ← Guarded.bounded (addSize base 8)
  return (Block.unpack (Block.read order (data.drop base))).toList

/-- The lanes of whole blocks, all of whose bytes have to be there. -/
def blocksIn (order : ByteOrder) (data : Bytes) (block count : Nat) :
    Guarded (List (IQ Int16)) :=
  if count = 0 then return []
  else do
    let start ← Guarded.bounded (mulSize block Block.bytes)
    let size ← Guarded.bounded (mulSize count Block.bytes)
    let source ← Guarded.bounded (slice data start size)
    return lanes order count source

/-- The lanes of the first block that belong to the run, if it starts inside one. -/
def headIn (order : ByteOrder) (data : Bytes) (r : Run) : Guarded (List (IQ Int16)) :=
  if r.skipped = 0 then return []
  else do
    let found ← blockIn order data r.firstBlock
    return (found.drop r.skipped).take r.count

/-- The first `count` lanes of a block. -/
def tailIn (order : ByteOrder) (data : Bytes) (block count : Nat) :
    Guarded (List (IQ Int16)) :=
  if count = 0 then return []
  else do
    let found ← blockIn order data block
    return found.take count

/-- Writes words one after the other, from the byte `start` of `data` on. A word for which
there is no room is left out, but its end has to be a size. -/
def putWords (order : ByteOrder) : Bytes → Nat → List UInt32 → Guarded Bytes
  | data, _, [] => .ok data
  | data, start, w :: rest => do
    let stop ← Guarded.bounded (addSize start 4)
    putWords order (if stop ≤ data.length then splice data start (order.wordBytes w) else data)
      stop rest

/-- Puts samples in place of those of one block, from its sample `first` on. -/
def patchIn (order : ByteOrder) (data : Bytes) (block first : Nat)
    (samples : List (IQ Int16)) : Guarded Bytes := do
  let base ← Guarded.bounded (mulSize block Block.bytes)
  let _ ← Guarded.bounded (addSize base 8)
  let own := Block.components (Block.unpack (Block.read order (data.drop base)))
  let _ ← Guarded.difference Block.samples (first + samples.length)
  let given := List.replicate first none ++ samples.map some
  let merged : Block.Lanes := Vector.ofFn fun k => (given[k.val]?.join).getD (own.get k)
  putWords order data base (Block.pack merged).toList

/-- The bytes of whole blocks. -/
def blockBytes (order : ByteOrder) (count : Nat) (samples : List (IQ Int16)) : Bytes :=
  (chunks Block.samples count samples).flatMap fun own =>
    Block.write order (Block.pack (Vector.ofFn fun k => own.getD k.val ⟨0, 0⟩))

/-- Writes whole blocks, for all of which there has to be room. -/
def putBlocks (order : ByteOrder) (data : Bytes) (block count : Nat)
    (samples : List (IQ Int16)) : Guarded Bytes :=
  if count = 0 then return data
  else do
    let start ← Guarded.bounded (mulSize block Block.bytes)
    let size ← Guarded.bounded (mulSize count Block.bytes)
    let _ ← Guarded.bounded (slice data start size)
    return splice data start (blockBytes order count samples)

/-- Puts samples in the first block that belongs to the run, if it starts inside one. -/
def patchHead (order : ByteOrder) (data : Bytes) (r : Run) (samples : List (IQ Int16)) :
    Guarded Bytes :=
  if r.skipped = 0 then return data else patchIn order data r.firstBlock r.skipped samples

/-- Puts samples in the front of a block, if there are any. -/
def patchTail (order : ByteOrder) (data : Bytes) (block : Nat) (samples : List (IQ Int16)) :
    Guarded Bytes :=
  if samples.length = 0 then return data else patchIn order data block 0 samples

/-- `write`, every access checked. -/
def writeGuarded (order : ByteOrder) (data : Bytes) (start : Nat)
    (samples : List (IQ Int16)) : Guarded Bytes := do
  let r : Run := ⟨start, samples.length⟩
  let data ← patchHead order data r (samples.take r.headCount)
  let left ← Guarded.difference r.count r.headCount
  let size := left / Block.samples * Block.samples
  let rest := samples.drop r.headCount
  let data ← putBlocks order data r.bodyBlock (left / Block.samples) (rest.take size)
  patchTail order data (r.bodyBlock + left / Block.samples) (rest.drop size)

end Packed

namespace Converter

/-- Writes items of `size` bytes one after the other, from item `k` of `target` on. -/
def storeEach (size : Nat) : Bytes → Nat → List Bytes → Guarded Bytes
  | target, _, [] => .ok target
  | target, k, item :: rest => do
    let _ ← Guarded.bounded (slice target (k * size) size)
    storeEach size (splice target (k * size) item) (k + 1) rest

/-- The bytes of host samples made from lanes. -/
def storeLanes (p : Precision) (scalar : Float) (lanes : List (IQ Int16)) : List Bytes :=
  lanes.map fun lane => p.storeSample (lane.scaled scalar)

/-- Stores the three parts of a run of packed samples in `window`, which holds just the
samples of the run. -/
def storeRun (order : ByteOrder) (p : Precision) (scalar : Float) (data : Bytes)
    (r : Packed.Run) (window : Bytes) : Guarded Bytes := do
  let head ← Packed.headIn order data r
  let window ← storeEach p.sampleBytes window 0 (storeLanes p scalar head)
  let left ← Guarded.difference r.count head.length
  let body ← Packed.blocksIn order data r.bodyBlock (left / Block.samples)
  let window ← storeEach p.sampleBytes window head.length (storeLanes p scalar body)
  let left ← Guarded.difference r.count (head.length + body.length)
  let tail ← Packed.tailIn order data (r.bodyBlock + body.length / Block.samples) left
  storeEach p.sampleBytes window (head.length + body.length) (storeLanes p scalar tail)

/-- `unpackRun`, every access checked. -/
def unpackRunGuarded (order : ByteOrder) (p : Precision) (scalar : Float)
    (source target : Place) (count : Nat) : Guarded Bytes :=
  if count = 0 then return target.buffer
  else do
    let start ← Guarded.bounded (mulSize target.start p.sampleBytes)
    let length ← Guarded.bounded (mulSize count p.sampleBytes)
    let window ← Guarded.bounded (slice target.buffer start length)
    let window ← storeRun order p scalar source.buffer ⟨source.start, count⟩ window
    return splice target.buffer start window

/-- `packRun`, every access checked. -/
def packRunGuarded (order : ByteOrder) (p : Precision) (scalar : Float) (source target : Place)
    (count : Nat) : Guarded Bytes :=
  if count = 0 then return target.buffer
  else do
    let start ← Guarded.bounded (mulSize source.start p.sampleBytes)
    let length ← Guarded.bounded (mulSize count p.sampleBytes)
    let items ← Guarded.bounded (slice source.buffer start length)
    let samples := (chunks p.sampleBytes count items).map fun bytes =>
      (p.loadSample bytes).quantized 12 scalar
    Packed.writeGuarded order target.buffer target.start samples

/-- `Converter.convert`, every access of the conversion of packed samples checked one
by one. The other conversions take two slices and go through them item by item. -/
def convertGuarded (c : Converter) (source target : Place) (count : Nat) : Guarded Bytes :=
  match c with
  | .scaled (.unpackBlocks order p) scalar => unpackRunGuarded order p scalar source target count
  | c => Guarded.bounded (c.convert source target count)

end Converter
end SampleStream.Sample
