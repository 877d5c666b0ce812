import SampleStream.Proofs.Packet.Bounds
import SampleStream.Proofs.Packet.Canonical
import SampleStream.Proofs.Packet.Frames

/-!
# Which packets are accepted

What becomes of a packet is decided by its length and its first word: the class field
has to name a class, and the size field has to hold the header that the class and the
presence bits ask for, within the whole words of the packet (`unpack_cases`). What is
read of a packet that is accepted lies in the words that the size field counts
(`WellFormed.unpack_congr`). Main statement: `unpack_accepts`.
-/

namespace SampleStream

/-- A slice that ends in the front of a list is one of the front. -/
theorem slice_take {α : Type} (xs : List α) {start len n : Nat} (h : start + len ≤ n) :
    slice (xs.take n) start len = slice xs start len := by
  have hitems : ((xs.take n).drop start).take len = (xs.drop start).take len := by
    rw [List.drop_take, List.take_take, Nat.min_eq_left (by omega)]
  rw [slice, slice, hitems, List.length_take]
  congr 1
  rw [eq_iff_iff]
  omega

namespace Header

/-! ## The first word -/

/-- The class field of a first word. -/
def classField (first : UInt32) : Nat := first.toNat / 2 ^ 28

/-- The size field of a first word. -/
def sizeField (first : UInt32) : Nat := first.toNat % 2 ^ 16

/-- The words of the header that the class and the presence bits of a first word ask for. -/
def askedWords (first : UInt32) : Nat :=
  1 + (decide (classField first ∈ [1, 3, 4, 5])).toNat + 2 * (flag first 27).toNat
    + (first.toNat / 2 ^ 22 % 4 != 0).toNat + 2 * (first.toNat / 2 ^ 20 % 4 != 0).toNat

/-- The words of the trailer that a first word asks for. -/
def askedTrailer (first : UInt32) : Nat := (flag first 26).toNat

theorem ofClassCode?_eq_none {code : Nat} : ofClassCode? code = none ↔ 5 < code := by
  unfold ofClassCode?
  split
  all_goals simp_all
  omega

/-- The classes whose packets have a stream identifier. -/
theorem snd_of_ofClassCode? {code : Nat} {packetClass : PacketClass} {hasStream : Bool}
    (h : ofClassCode? code = some (packetClass, hasStream)) :
    hasStream = decide (code ∈ [1, 3, 4, 5]) := by
  unfold ofClassCode? at h
  split at h <;> cases h <;> rfl

/-! ## Answers -/

variable {order : ByteOrder} {packet : Bytes}

theorem unpack_of_short (order : ByteOrder) (hlength : packet.length < 4) :
    unpack order packet = .error (.tooShort 0 1) := by
  rw [unpack]
  exact if_pos (by omega)

theorem unpack_of_unknown (hlength : 4 ≤ packet.length)
    (hclass : 5 < classField (order.wordAt packet 0)) :
    unpack order packet = .error (.unsupportedType (classField (order.wordAt packet 0))) := by
  unfold unpack
  dsimp only
  rw [if_neg (by omega), ← classField, ofClassCode?_eq_none.mpr hclass]

/-- The sizes decide about a packet of a class that is known. -/
theorem unpack_of_known (hlength : 4 ≤ packet.length)
    (hclass : classField (order.wordAt packet 0) ≤ 5) :
    let first := order.wordAt packet 0
    ∃ h, unpack order packet =
      if packet.length / 4 < sizeField first ∨
          sizeField first < askedWords first + askedTrailer first then .error .badHeader
      else .ok (h, ⟨askedWords first, sizeField first - askedWords first - askedTrailer first,
        askedTrailer first⟩) := by
  intro first
  cases hcode : ofClassCode? (classField first) with
  | none => exact absurd (ofClassCode?_eq_none.mp hcode) (Nat.not_lt.mpr hclass)
  | some found =>
    obtain ⟨packetClass, hasStream⟩ := found
    have hasked : 1 + hasStream.toNat + 2 * (flag first 27).toNat
        + (first.toNat / 2 ^ 22 % 4 != 0).toNat + 2 * (first.toNat / 2 ^ 20 % 4 != 0).toNat =
          askedWords first := by
      rw [askedWords, snd_of_ofClassCode? hcode]
    unfold unpack
    dsimp only
    rw [if_neg (by omega), show order.wordAt packet 0 = first from rfl, ← classField, hcode]
    dsimp only
    rw [hasked]
    exact ⟨_, rfl⟩

/-- A packet that is well formed: it names a class, and its size field holds the header and
the trailer that are asked for and no more than the whole words that there are. -/
structure WellFormed (order : ByteOrder) (packet : Bytes) : Prop where
  length : 4 ≤ packet.length
  known : classField (order.wordAt packet 0) ≤ 5
  inside : sizeField (order.wordAt packet 0) ≤ packet.length / 4
  room : askedWords (order.wordAt packet 0) + askedTrailer (order.wordAt packet 0) ≤
    sizeField (order.wordAt packet 0)

theorem WellFormed.unpack_eq (hw : WellFormed order packet) :
    let first := order.wordAt packet 0
    ∃ h, unpack order packet = .ok (h, ⟨askedWords first,
      sizeField first - askedWords first - askedTrailer first, askedTrailer first⟩) := by
  obtain ⟨h, hunpack⟩ := unpack_of_known hw.length hw.known
  rw [if_neg (not_or.mpr ⟨Nat.not_lt.mpr hw.inside, Nat.not_lt.mpr hw.room⟩)] at hunpack
  exact ⟨h, hunpack⟩

/-- Every packet gets one of four answers, and its length and its first word say which. -/
theorem unpack_cases (order : ByteOrder) (packet : Bytes) :
    let first := order.wordAt packet 0
    (packet.length < 4 ∧ unpack order packet = .error (.tooShort 0 1)) ∨
      (4 ≤ packet.length ∧ 5 < classField first ∧
        unpack order packet = .error (.unsupportedType (classField first))) ∨
      (4 ≤ packet.length ∧ classField first ≤ 5 ∧
        (packet.length / 4 < sizeField first ∨
          sizeField first < askedWords first + askedTrailer first) ∧
        unpack order packet = .error .badHeader) ∨
      (WellFormed order packet ∧ ∃ accepted, unpack order packet = .ok accepted) := by
  intro first
  rcases Nat.lt_or_ge packet.length 4 with hshort | hlength
  · exact .inl ⟨hshort, unpack_of_short order hshort⟩
  rcases Nat.lt_or_ge 5 (classField first) with hunknown | hknown
  · exact .inr (.inl ⟨hlength, hunknown, unpack_of_unknown hlength hunknown⟩)
  obtain ⟨h, hunpack⟩ := unpack_of_known hlength hknown
  by_cases hbad : packet.length / 4 < sizeField first ∨
      sizeField first < askedWords first + askedTrailer first
  · rw [if_pos hbad] at hunpack
    exact .inr (.inr (.inl ⟨hlength, hknown, hbad, hunpack⟩))
  · rw [if_neg hbad] at hunpack
    obtain ⟨hinside, hroom⟩ := not_or.mp hbad
    exact .inr (.inr (.inr ⟨⟨hlength, hknown, Nat.le_of_not_lt hinside, Nat.le_of_not_lt hroom⟩,
      _, hunpack⟩))

theorem unpack_eq_tooShort_iff {present need : Nat} :
    unpack order packet = .error (.tooShort present need) ↔
      packet.length < 4 ∧ present = 0 ∧ need = 1 := by
  rcases unpack_cases order packet with ⟨hshort, hanswer⟩ | ⟨hlength, -, hanswer⟩ |
    ⟨hlength, -, -, hanswer⟩ | ⟨hw, accepted, hanswer⟩
  · simp [hanswer, hshort, eq_comm]
  · simp [hanswer, Nat.not_lt.mpr hlength]
  · simp [hanswer, Nat.not_lt.mpr hlength]
  · simp [hanswer, Nat.not_lt.mpr hw.length]

theorem unpack_eq_unsupportedType_iff {code : Nat} :
    unpack order packet = .error (.unsupportedType code) ↔
      4 ≤ packet.length ∧ 5 < classField (order.wordAt packet 0) ∧
        code = classField (order.wordAt packet 0) := by
  rcases unpack_cases order packet with ⟨hshort, hanswer⟩ | ⟨hlength, hunknown, hanswer⟩ |
    ⟨-, hknown, -, hanswer⟩ | ⟨hw, accepted, hanswer⟩
  · simp [hanswer, Nat.not_le.mpr hshort]
  · simp [hanswer, hlength, hunknown, eq_comm]
  · simp [hanswer, Nat.not_lt.mpr hknown]
  · simp [hanswer, Nat.not_lt.mpr hw.known]

theorem unpack_eq_badHeader_iff :
    unpack order packet = .error .badHeader ↔
      4 ≤ packet.length ∧ classField (order.wordAt packet 0) ≤ 5 ∧
        (packet.length / 4 < sizeField (order.wordAt packet 0) ∨
          sizeField (order.wordAt packet 0) <
            askedWords (order.wordAt packet 0) + askedTrailer (order.wordAt packet 0)) := by
  rcases unpack_cases order packet with ⟨hshort, hanswer⟩ | ⟨-, hunknown, hanswer⟩ |
    ⟨hlength, hknown, hsizes, hanswer⟩ | ⟨hw, accepted, hanswer⟩
  · simp [hanswer, Nat.not_le.mpr hshort]
  · simp [hanswer, Nat.not_le.mpr hunknown]
  · simp [hanswer, hlength, hknown, hsizes]
  · simp [hanswer, Nat.not_lt.mpr hw.inside, Nat.not_lt.mpr hw.room]

theorem wellFormed_iff :
    WellFormed order packet ↔ ∃ accepted, unpack order packet = .ok accepted := by
  constructor
  · intro hw
    obtain ⟨h, hunpack⟩ := hw.unpack_eq
    exact ⟨_, hunpack⟩
  · rintro ⟨accepted, hunpack⟩
    rcases unpack_cases order packet with ⟨-, hanswer⟩ | ⟨-, -, hanswer⟩ | ⟨-, -, -, hanswer⟩ |
      ⟨hw, -⟩
    · exact nomatch hanswer.symm.trans hunpack
    · exact nomatch hanswer.symm.trans hunpack
    · exact nomatch hanswer.symm.trans hunpack
    · exact hw

/-! ## What an answer depends on -/

/-- A field of one word is read where it stands. -/
theorem ite_word_congr {word word' : Nat → UInt32} {total k : Nat} {b : Bool}
    (hword : ∀ j < total, word' j = word j) (hk : k + b.toNat ≤ total) :
    (if b = true then some (word' k) else none) = if b = true then some (word k) else none := by
  cases b with
  | false => rfl
  | true =>
    rw [Bool.toNat_true] at hk
    rw [hword k (by omega)]

/-- A field of two words is read where it stands. -/
theorem ite_longWords_congr {word word' : Nat → UInt32} {total k : Nat} {b : Bool}
    (hword : ∀ j < total, word' j = word j) (hk : k + 2 * b.toNat ≤ total) :
    (if b = true then some (ofLongWords (word' k) (word' (k + 1))) else none) =
      if b = true then some (ofLongWords (word k) (word (k + 1))) else none := by
  cases b with
  | false => simp
  | true =>
    rw [Bool.toNat_true] at hk
    rw [hword k (by omega), hword (k + 1) (by omega)]

/-- All that is read of a packet lies in the words that its size field counts. -/
theorem WellFormed.unpack_congr (hw : WellFormed order packet) {other : Bytes}
    (hfront : other.take (4 * sizeField (order.wordAt packet 0)) =
      packet.take (4 * sizeField (order.wordAt packet 0))) :
    unpack order other = unpack order packet := by
  obtain ⟨hlength, hknown, hinside, hroom⟩ := hw
  generalize htotal : sizeField (order.wordAt packet 0) = total at hfront hinside hroom
  have hlong : 4 * total ≤ other.length := by
    have hsame := congrArg List.length hfront
    rw [List.length_take, List.length_take] at hsame
    omega
  have hword : ∀ j < total, order.wordAt other j = order.wordAt packet j := by
    intro j hj
    have hword (bytes : Bytes) : (bytes.drop (4 * j)).take 4 =
        ((bytes.take (4 * total)).drop (4 * j)).take 4 := by
      rw [List.drop_take, List.take_take, Nat.min_eq_left (by omega)]
    exact order.wordAt_congr (by rw [hword other, hfront, ← hword packet])
  have hpos : 0 < total := by
    rw [askedWords] at hroom
    omega
  unfold unpack
  dsimp only
  rw [if_neg (show ¬ other.length / 4 = 0 by omega),
    if_neg (show ¬ packet.length / 4 = 0 by omega), hword 0 hpos]
  generalize hfirst : order.wordAt packet 0 = first at hknown htotal hroom
  cases hcode : ofClassCode? (first.toNat / 2 ^ 28) with
  | none => exact absurd (ofClassCode?_eq_none.mp hcode) (Nat.not_lt.mpr hknown)
  | some found =>
    obtain ⟨packetClass, hasStream⟩ := found
    rw [askedWords, classField, ← snd_of_ofClassCode? hcode, askedTrailer] at hroom
    dsimp only
    rw [← sizeField, htotal]
    generalize flag first 27 = hasClass at hroom
    generalize flag first 26 = hasTrailer at hroom
    generalize (first.toNat / 2 ^ 22 % 4 != 0) = hasWhole at hroom
    generalize (first.toNat / 2 ^ 20 % 4 != 0) = hasFraction at hroom
    have hfits (length : Nat) (h : total ≤ length / 4) : ¬ (length / 4 < total ∨
        total < 1 + hasStream.toNat + 2 * hasClass.toNat + hasWhole.toNat +
          2 * hasFraction.toNat + hasTrailer.toNat) := by omega
    have hone := hasTrailer.toNat_le
    rw [if_neg (hfits other.length (by omega)), if_neg (hfits packet.length hinside),
      ite_word_congr hword (by omega), ite_longWords_congr hword (by omega),
      ite_word_congr hword (by omega), ite_longWords_congr hword (by omega),
      ite_word_congr hword (by omega)]

/-- What comes behind a packet that is accepted is of no account. -/
theorem unpack_append {hdr : Header} {extent : Extent}
    (h : unpack order packet = .ok (hdr, extent)) (behind : Bytes) :
    unpack order (packet ++ behind) = .ok (hdr, extent) ∧
      extent.payloadOf (packet ++ behind) = extent.payloadOf packet := by
  have hw : WellFormed order packet := by
    rcases unpack_cases order packet with ⟨-, hshort⟩ | ⟨-, -, hunknown⟩ | ⟨-, -, -, hbad⟩ |
      ⟨hw, -⟩
    · cases hshort.symm.trans h
    · cases hunknown.symm.trans h
    · cases hbad.symm.trans h
    · exact hw
  obtain ⟨payload, hpayload⟩ := payloadOf_of_unpack h
  have hinside : 4 * extent.header + 4 * extent.payload ≤ packet.length :=
    (slice_eq_some.mp hpayload).1
  have hfront : (packet ++ behind).take packet.length = packet :=
    List.take_left' rfl
  constructor
  · rw [hw.unpack_congr ?_, h]
    exact List.take_append_of_le_length (by have := hw.inside; omega)
  · rw [Extent.payloadOf, Extent.payloadOf, ← slice_take (packet ++ behind) hinside, hfront]

end Header

namespace PacketRecord

open Header

variable {order : ByteOrder} {packet : Bytes}

theorem unpack_eq_error_iff {e : FramingError} :
    unpack order packet = .error e ↔ Header.unpack order packet = .error e := by
  rw [unpack]
  cases Header.unpack order packet with
  | error => simp [Except.map]
  | ok => simp [Except.map]

theorem unpack_eq_ok_iff {r : PacketRecord} :
    unpack order packet = .ok r ↔
      ∃ h e, Header.unpack order packet = .ok (h, e) ∧ ofHeader h e = r := by
  rw [unpack]
  cases Header.unpack order packet with
  | error => simp [Except.map]
  | ok parts =>
    obtain ⟨h, e⟩ := parts
    constructor
    · rintro ⟨⟩
      exact ⟨h, e, rfl, rfl⟩
    · rintro ⟨_, _, ⟨⟩, rfl⟩
      rfl

/-- What is known of the record of a packet that is accepted: the words that it counts are
those of the size field, and the payload lies in the packet, whatever comes behind. -/
theorem counts_of_unpack {h : Header} {e : Extent}
    (hunpack : Header.unpack order packet = .ok (h, e)) :
    let first := order.wordAt packet 0
    let r := ofHeader h e
    r.headerWords + r.payloadWords + r.hasTrailer.toNat = sizeField first ∧
      (∃ payload, r.payload packet = some payload) ∧
      ∀ other : Bytes, other.take (4 * sizeField first) = packet.take (4 * sizeField first) →
        r.payload other = r.payload packet := by
  obtain ⟨-, -, hextent, hfirst⟩ := Header.unpack_eq_ok hunpack
  have htrailer : e.trailer = h.trailer.isSome.toNat := congrArg Extent.trailer hextent
  have hsize : e.header + e.payload + h.trailer.isSome.toNat =
      sizeField (order.wordAt packet 0) := by
    rw [← htrailer]
    exact hfirst.size
  refine ⟨hsize, Header.payloadOf_of_unpack hunpack, fun other hfront => ?_⟩
  have hinside : 4 * e.header + 4 * e.payload ≤ 4 * sizeField (order.wordAt packet 0) := by omega
  exact (slice_take other hinside).symm.trans (hfront ▸ slice_take packet hinside)

/-- Unpacking reads inside the packet only and refuses it for three reasons: it has no
whole word, or else its class field names no class, or else its size field holds more than
the whole words that there are or less than the header and the trailer that are asked for.
Any other packet is accepted. Its header, payload and trailer are then the words that the
size field counts, the payload lies in the packet, and all that comes behind these words is
of no account. -/
theorem unpack_accepts (order : ByteOrder) (packet : Bytes) :
    let first := order.wordAt packet 0
    Header.unpackGuarded order packet = .ok (Header.unpack order packet) ∧
      (∀ present need, unpack order packet = .error (.tooShort present need) ↔
        packet.length < 4 ∧ present = 0 ∧ need = 1) ∧
      (∀ code, unpack order packet = .error (.unsupportedType code) ↔
        4 ≤ packet.length ∧ 5 < classField first ∧ code = classField first) ∧
      (unpack order packet = .error .badHeader ↔
        4 ≤ packet.length ∧ classField first ≤ 5 ∧
          (packet.length / 4 < sizeField first ∨
            sizeField first < askedWords first + askedTrailer first)) ∧
      ((∃ r, unpack order packet = .ok r) ↔ WellFormed order packet) ∧
      ∀ r, unpack order packet = .ok r →
        r.headerWords = askedWords first ∧
          r.headerWords + r.payloadWords + r.hasTrailer.toNat = sizeField first ∧
          r.payloadBytes = 4 * r.payloadWords ∧
          (∃ payload, r.payload packet = some payload) ∧
          ∀ other : Bytes, other.take (4 * sizeField first) = packet.take (4 * sizeField first) →
            unpack order other = .ok r ∧ r.payload other = r.payload packet := by
  intro first
  refine ⟨unpackGuarded_eq order packet, fun present need => ?_, fun code => ?_, ?_, ?_,
    fun r hr => ?_⟩
  · rw [unpack_eq_error_iff, unpack_eq_tooShort_iff]
  · rw [unpack_eq_error_iff, unpack_eq_unsupportedType_iff]
  · rw [unpack_eq_error_iff, unpack_eq_badHeader_iff]
  · rw [wellFormed_iff]
    simp only [unpack_eq_ok_iff, Prod.exists]
    exact ⟨fun ⟨_, h, e, hread, _⟩ => ⟨h, e, hread⟩, fun ⟨h, e, hread⟩ => ⟨_, h, e, hread, rfl⟩⟩
  · obtain ⟨h, e, hread, rfl⟩ := unpack_eq_ok_iff.mp hr
    have hw : WellFormed order packet := wellFormed_iff.mpr ⟨_, hread⟩
    obtain ⟨hcounts, hpayload, hbehind⟩ := counts_of_unpack hread
    obtain ⟨h', hasked⟩ := hw.unpack_eq
    have hheader : e.header = askedWords first := by
      cases hread.symm.trans hasked
      rfl
    refine ⟨hheader, hcounts, rfl, hpayload, fun other hfront => ⟨?_, hbehind other hfront⟩⟩
    rw [unpack_eq_ok_iff, hw.unpack_congr hfront]
    exact ⟨h, e, hread, rfl⟩

end PacketRecord
end SampleStream
