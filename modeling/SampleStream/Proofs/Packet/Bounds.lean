import SampleStream.Packet.Guarded
import SampleStream.Proofs.Packet.RoundTrip

/-!
# Unpacking stays inside the packet

Whatever the bytes are, unpacking reads words of the packet only and takes no
difference below zero: the guarded form always has a value, and it is that of the
plain one (`unpackGuarded_eq`).
-/

namespace SampleStream

theorem ByteOrder.wordIn_eq (order : ByteOrder) {packet : Bytes} {k : Nat}
    (hk : k < packet.length / 4) : order.wordIn packet k = .ok (order.wordAt packet k) := by
  rw [wordIn, Guarded.bounded_slice (by omega), wordAt_eq_take]
  rfl

namespace Header

variable {order : ByteOrder} {packet : Bytes}

theorem fieldIn_eq {present : Bool} {k : Nat} (hk : k + present.toNat ≤ packet.length / 4) :
    fieldIn order packet present k =
      .ok (if present then some (order.wordAt packet k) else none, k + present.toNat) := by
  cases present with
  | false => rfl
  | true =>
    rw [Bool.toNat_true] at hk
    rw [fieldIn, if_pos rfl, order.wordIn_eq (by omega)]
    rfl

theorem longFieldIn_eq {present : Bool} {k : Nat}
    (hk : k + 2 * present.toNat ≤ packet.length / 4) :
    longFieldIn order packet present k =
      .ok (if present then
          some (ofLongWords (order.wordAt packet k) (order.wordAt packet (k + 1))) else none,
        k + 2 * present.toNat) := by
  cases present with
  | false => rfl
  | true =>
    rw [Bool.toNat_true] at hk
    rw [longFieldIn, if_pos rfl, order.wordIn_eq (by omega), order.wordIn_eq (by omega)]
    rfl

theorem trailerIn_eq {present : Bool} {total : Nat} (hpos : 0 < total)
    (htotal : total ≤ packet.length / 4) :
    trailerIn order packet present total =
      .ok (if present then some (order.wordAt packet (total - 1)) else none) := by
  cases present with
  | false => rfl
  | true =>
    rw [trailerIn, if_pos rfl, Guarded.difference_of_le hpos]
    change (order.wordIn packet (total - 1) >>= _) = _
    rw [order.wordIn_eq (by omega)]
    rfl

/-- No packet takes unpacking out of its bounds. -/
theorem unpackGuarded_eq (order : ByteOrder) (packet : Bytes) :
    unpackGuarded order packet = .ok (unpack order packet) := by
  unfold unpackGuarded unpack
  dsimp only
  by_cases hempty : packet.length / 4 = 0
  · rw [if_pos hempty, if_pos hempty]
  · rw [if_neg hempty, if_neg hempty, order.wordIn_eq (by omega)]
    simp only [bind, Except.bind]
    cases ofClassCode? ((order.wordAt packet 0).toNat / 2 ^ 28) with
    | none => rfl
    | some found =>
      obtain ⟨packetClass, hasStream⟩ := found
      dsimp only
      generalize flag (order.wordAt packet 0) 27 = hasClass
      generalize flag (order.wordAt packet 0) 26 = hasTrailer
      generalize ((order.wordAt packet 0).toNat / 2 ^ 22 % 4 != 0) = hasWhole
      generalize ((order.wordAt packet 0).toNat / 2 ^ 20 % 4 != 0) = hasFraction
      split
      · rfl
      · rename_i hroom
        -- every field ends where the next one starts, and the header ends in the packet
        rw [fieldIn_eq (by omega)]
        dsimp only
        rw [longFieldIn_eq (by omega)]
        dsimp only
        rw [fieldIn_eq (by omega)]
        dsimp only
        rw [longFieldIn_eq (by omega)]
        dsimp only
        rw [trailerIn_eq (by omega) (by omega)]
        dsimp only
        rw [Guarded.difference_of_le (by omega)]
        dsimp only
        rw [Guarded.difference_of_le (by omega)]
        rfl

end Header
end SampleStream
