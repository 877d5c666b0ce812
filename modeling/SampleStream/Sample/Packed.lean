import SampleStream.Sample.Block

/-!
# Runs of packed samples

A run of packed samples may start and end inside a block. Reading decodes the
blocks that the run touches and takes the run out of their lanes; writing
patches those blocks, so that samples beside the run survive. Whole blocks of
the run have to lie inside the buffer. Words of a block at either end of the run
that lie past the buffer read as zero and are not written.
-/

namespace SampleStream.Sample.Packed

/-! ## The blocks of a run -/

/-- A run of samples: the position of the first one, and how many there are. -/
structure Run where
  start : Nat
  count : Nat
deriving DecidableEq, Repr

namespace Run

/-- The block that holds the first sample. -/
def firstBlock (r : Run) : Nat := r.start / Block.samples

/-- Samples of the first block before the run. -/
def skipped (r : Run) : Nat := r.start % Block.samples

/-- The blocks that the run touches. -/
def blocks (r : Run) : Nat := (r.skipped + r.count + 3) / Block.samples

/-- Samples of the run in a first block that is not its own from the start. -/
def headCount (r : Run) : Nat :=
  if r.skipped = 0 then 0 else min (Block.samples - r.skipped) r.count

/-- The first block that belongs to the run from its start on. -/
def bodyBlock (r : Run) : Nat := r.firstBlock + (if r.skipped = 0 then 0 else 1)

/-- The blocks that belong to the run wholly. -/
def wholeBlocks (r : Run) : Nat := (r.count - r.headCount) / Block.samples

/-- Samples of the run after its whole blocks. -/
def tailCount (r : Run) : Nat := (r.count - r.headCount) % Block.samples

/-- Whether the run can be reached in a buffer of `length` bytes: its whole
blocks lie inside, and the positions of the blocks at its ends, up to `reach`
bytes into them, are sizes. -/
def reachable (r : Run) (reach length : Nat) : Bool :=
  (r.skipped == 0 || r.firstBlock * Block.bytes + reach < sizeLimit)
    && (r.wholeBlocks == 0 || (r.bodyBlock + r.wholeBlocks) * Block.bytes ≤ length)
    && (r.tailCount == 0 ||
      (r.bodyBlock + r.wholeBlocks) * Block.bytes + reach < sizeLimit)

end Run

/-! ## Reading -/

/-- The lanes of `count` blocks from the front of `data` on. -/
def lanes (order : ByteOrder) (count : Nat) (data : Bytes) : List (IQ Int16) :=
  (chunks Block.bytes count data).flatMap fun block =>
    (Block.unpack (Block.read order block)).toList

/-- The lanes of the samples of a run that is not empty. -/
def read (order : ByteOrder) (data : Bytes) (r : Run) : Checked (List (IQ Int16)) :=
  if r.reachable 8 data.length then
    let touched := lanes order r.blocks (data.drop (r.firstBlock * Block.bytes))
    some ((touched.drop r.skipped).take r.count)
  else none

/-! ## Writing -/

/-- A block with the samples that are given put in place of its own. Only words
of which all four bytes are present are written. -/
def patch (order : ByteOrder) (block : Bytes) (given : List (Option (IQ Int16))) : Bytes :=
  let own := Block.components (Block.unpack (Block.read order block))
  let merged : Block.Lanes := Vector.ofFn fun k => (given[k.val]?.join).getD own[k]
  let whole := 4 * (block.length / 4)
  (Block.write order (Block.pack merged)).take whole ++ block.drop whole

/-- `data` with `samples` written to the run that starts at `start`. -/
def write (order : ByteOrder) (data : Bytes) (start : Nat) (samples : List (IQ Int16)) :
    Checked Bytes :=
  let r : Run := ⟨start, samples.length⟩
  if r.reachable 12 data.length then
    let origin := r.firstBlock * Block.bytes
    let given := chunks Block.samples r.blocks
      (List.replicate r.skipped none ++ samples.map some)
    let touched := chunks Block.bytes r.blocks (data.drop origin)
    let patched := List.zipWith (patch order) touched given
    some (data.take origin ++ patched.flatten ++ data.drop (origin + r.blocks * Block.bytes))
  else none

end SampleStream.Sample.Packed
