import SampleStream.Sample.Format

/-!
# Blocks of packed 12-bit samples

Three words carry four complex samples of 12 bits a component, most significant
first, and components straddle word boundaries:

    word 0:  I0 (12)      | Q0 (12) | I1 11:4 (8)
    word 1:  I1 3:0 (4)   | Q1 (12) | I2 (12) | Q2 11:8 (4)
    word 2:  Q2 7:0 (8)   | I3 (12) | Q3 (12)

Unpacking puts a component into the upper 12 bits of a 16-bit lane, which
extends its sign and scales it by sixteen.
-/

namespace SampleStream.Sample.Block

/-- The words of a block. -/
abbrev Words := Vector UInt32 3

/-- The samples of a block. -/
abbrev Lanes := Vector (IQ Int16) 4

/-- Samples in a block. -/
def samples : Nat := 4

/-- Bytes of a block. -/
def bytes : Nat := 12

/-- The factor by which a lane exceeds its component. -/
def growth : Nat := 16

/-- A component in the upper bits of a lane. -/
def lane (field : BitVec 12) : Int16 := Int16.ofBitVec (field ++ 0#4)

/-- The 12 low bits of a component. -/
def field (component : Int16) : BitVec 12 := component.toBitVec.setWidth 12

/-- The lanes of a block. -/
def unpack (words : Words) : Lanes :=
  let w0 := words[0].toBitVec
  let w1 := words[1].toBitVec
  let w2 := words[2].toBitVec
  #v[⟨lane (w0.extractLsb' 20 12), lane (w0.extractLsb' 8 12)⟩,
    ⟨lane (w0.extractLsb' 0 8 ++ w1.extractLsb' 28 4), lane (w1.extractLsb' 16 12)⟩,
    ⟨lane (w1.extractLsb' 4 12), lane (w1.extractLsb' 0 4 ++ w2.extractLsb' 24 8)⟩,
    ⟨lane (w2.extractLsb' 12 12), lane (w2.extractLsb' 0 12)⟩]

/-- The words that hold the low 12 bits of each component. -/
def pack (samples : Lanes) : Words :=
  let i1 := field samples[1].i
  let q2 := field samples[2].q
  #v[⟨field samples[0].i ++ field samples[0].q ++ i1.extractLsb' 4 8⟩,
    ⟨i1.extractLsb' 0 4 ++ field samples[1].q ++ field samples[2].i ++ q2.extractLsb' 8 4⟩,
    ⟨q2.extractLsb' 0 8 ++ field samples[3].i ++ field samples[3].q⟩]

/-- The components of the lanes: each lane without the factor of its place. -/
def components (lanes : Lanes) : Lanes := lanes.map (IQ.map fun x => x >>> (4 : Int16))

/-! ## Blocks in a byte sequence -/

/-- The words at the front of `data`; bytes that are missing count as zero. -/
def read (order : ByteOrder) (data : Bytes) : Words :=
  #v[order.wordAt data 0, order.wordAt data 1, order.wordAt data 2]

/-- The bytes of a block. -/
def write (order : ByteOrder) (words : Words) : Bytes := order.wordsBytes words.toList

@[simp] theorem length_write (order : ByteOrder) (words : Words) :
    (write order words).length = bytes := by
  simp [write, bytes]

theorem read_write (order : ByteOrder) (words : Words) (rest : Bytes) :
    read order (write order words ++ rest) = words := by
  apply Vector.ext
  intro k hk
  have hword (j : Nat) (hj : j < 3) :
      order.wordAt (write order words ++ rest) j = words[j] := by
    rw [write, ByteOrder.wordAt_wordsBytes order words.toList rest j (by simpa using hj)]
    simp
  match k, hk with
  | 0, _ => exact hword 0 (by decide)
  | 1, _ => exact hword 1 (by decide)
  | 2, _ => exact hword 2 (by decide)

end SampleStream.Sample.Block
