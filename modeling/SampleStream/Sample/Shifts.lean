import SampleStream.Sample.Block

/-!
# Blocks by shifts and masks

The block codec in the arithmetic of words. A component is shifted to the upper twelve of
the sixteen lowest bits and the others are masked away; one that crosses a word boundary
is taken out of both words, side by side in one of twice the width. Packing shifts the
twelve low bits of each component to their place and cuts those two in pieces.
-/

namespace SampleStream.Sample.Block

/-- Two words side by side. -/
def sideBySide (high low : UInt32) : UInt64 := high.toUInt64 <<< 32 ||| low.toUInt64

/-- The lane whose component stands in the bits from 4 to 15 of a word. -/
def maskedLane (word : UInt32) : Int16 := (word &&& 0xfff0).toUInt16.toInt16

/-- The lane whose component stands in the bits from 4 to 15 of two words. -/
def maskedLaneOfTwo (words : UInt64) : Int16 := (words &&& 0xfff0).toUInt16.toInt16

/-- The lanes of three words, by shifts and masks. -/
def lanesByShifts (w0 w1 w2 : UInt32) : Lanes :=
  let w01 := sideBySide w0 w1
  let w12 := sideBySide w1 w2
  #v[⟨maskedLane (w0 >>> 16), maskedLane (w0 >>> 4)⟩,
    ⟨maskedLaneOfTwo (w01 >>> 24), maskedLane (w1 >>> 12)⟩,
    ⟨maskedLane w1, maskedLaneOfTwo (w12 >>> 20)⟩,
    ⟨maskedLane (w2 >>> 8), maskedLane (w2 <<< 4)⟩]

/-- The lanes of a block, by shifts and masks. -/
def unpackByShifts (words : Words) : Lanes :=
  lanesByShifts (words.get 0) (words.get 1) (words.get 2)

/-- The 12 low bits of a component as a word. -/
def maskedField (component : Int16) : UInt32 := component.toUInt16.toUInt32 &&& 0xfff

/-- The words that hold four samples, by shifts and masks. -/
def wordsByShifts (s0 s1 s2 s3 : IQ Int16) : Words :=
  let i1 := maskedField s1.i
  let q2 := maskedField s2.q
  #v[maskedField s0.i <<< 20 ||| maskedField s0.q <<< 8 ||| i1 >>> 4,
    (i1 &&& 0xf) <<< 28 ||| maskedField s1.q <<< 16 ||| maskedField s2.i <<< 4 ||| q2 >>> 8,
    (q2 &&& 0xff) <<< 24 ||| maskedField s3.i <<< 12 ||| maskedField s3.q]

/-- The words of a block, by shifts and masks. -/
def packByShifts (samples : Lanes) : Words :=
  wordsByShifts (samples.get 0) (samples.get 1) (samples.get 2) (samples.get 3)

end SampleStream.Sample.Block
