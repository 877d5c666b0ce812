import SampleStream.Bytes
import SampleStream.Number.Real

/-!
# Sample formats

Formats are named by tags. A complex host format (`fc32`, `fc64`, `sc16`) is laid
out little endian; a wire format (`sc16`, `sc12`) travels in words whose byte
order is part of the tag, as in `sc12_item32_le`. This module holds what a tag
says, and the two components of a host sample as bytes.
-/

namespace SampleStream.Sample

/-! ## Tags -/

/-- The part of a tag before its first underscore. -/
def baseTag (tag : String) : String := String.ofList (tag.toList.takeWhile (· ≠ '_'))

/-- The tag of a wire format in words of the given order. -/
def wireTag (format : String) (order : ByteOrder) : String :=
  format ++ "_item32_" ++ order.suffix

/-- The largest component of a wire format; one for formats without integers. -/
def peak (tag : String) : Float :=
  let base := baseTag tag
  if base = "sc16" ∨ base = "s16" then Real.ofNat 32767
  else if base = "sc12" then Real.ofNat 2047
  else if base = "sc8" ∨ base = "s8" then Real.ofNat 127
  else Real.ofNat 1

/-! ## Complex samples -/

/-- A complex sample: its in-phase and quadrature components. -/
structure IQ (α : Type) where
  i : α
  q : α
deriving DecidableEq, Repr

/-- The sample with a function applied to both components. -/
def IQ.map {α β : Type} (f : α → β) (s : IQ α) : IQ β := ⟨f s.i, f s.q⟩

/-! ## Components of host samples -/

/-- The precision of a real host component. -/
inductive Precision where
  | single
  | double
deriving DecidableEq, Repr

namespace Precision

/-- Bytes of a component. -/
def bytes : Precision → Nat
  | single => 4
  | double => 8

/-- The number that a component holds. -/
def load (p : Precision) (bytes : Bytes) : Float :=
  let bits := ByteOrder.little.decode bytes
  match p with
  | single => Real.widen bits
  | double => Float.ofBits (UInt64.ofNat bits)

/-- The component that holds a number, to the precision there is. -/
def store (p : Precision) (x : Float) : Bytes :=
  match p with
  | single => ByteOrder.little.encode 4 (Real.narrow x)
  | double => ByteOrder.little.encode 8 x.toBits.toNat

/-- Bytes of a complex sample. -/
def sampleBytes (p : Precision) : Nat := p.bytes * 2

/-- The complex sample at the front of `bytes`. -/
def loadSample (p : Precision) (bytes : Bytes) : IQ Float :=
  ⟨p.load (bytes.take p.bytes), p.load ((bytes.drop p.bytes).take p.bytes)⟩

/-- The bytes of a complex sample. -/
def storeSample (p : Precision) (s : IQ Float) : Bytes := p.store s.i ++ p.store s.q

theorem length_store (p : Precision) (x : Float) : (p.store x).length = p.bytes := by
  cases p <;> simp [store, bytes]

theorem length_storeSample (p : Precision) (s : IQ Float) :
    (p.storeSample s).length = p.sampleBytes := by
  simp [storeSample, length_store, sampleBytes]
  omega

end Precision

/-- The 16-bit integer sample at the front of `bytes`. -/
def loadShorts (bytes : Bytes) : IQ Int16 :=
  ⟨Int16.ofNat (ByteOrder.little.decode (bytes.take 2)),
    Int16.ofNat (ByteOrder.little.decode ((bytes.drop 2).take 2))⟩

/-- The bytes of a 16-bit integer sample. -/
def storeShorts (s : IQ Int16) : Bytes :=
  ByteOrder.little.encode 2 s.i.toUInt16.toNat ++ ByteOrder.little.encode 2 s.q.toUInt16.toNat

/-! ## Integer components -/

/-- A number rounded to a signed integer of `bits` bits: ties go away from zero,
numbers out of range to the nearer end, and what is not a number to zero. -/
def quantize (bits : Nat) (x : Float) : Int :=
  Real.round (-2 ^ (bits - 1)) (2 ^ (bits - 1) - 1) x

/-- A sample times a scalar, rounded to components of `bits` bits. -/
def IQ.quantized (bits : Nat) (scalar : Float) (s : IQ Float) : IQ Int16 :=
  s.map fun x => Int16.ofInt (quantize bits (x * scalar))

/-- An integer sample times a scalar. -/
def IQ.scaled (scalar : Float) (s : IQ Int16) : IQ Float :=
  s.map fun x => Real.ofInt x.toInt * scalar

end SampleStream.Sample
