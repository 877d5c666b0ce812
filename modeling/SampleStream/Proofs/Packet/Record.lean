import SampleStream.Packet.Record
import SampleStream.Proofs.Packet.RoundTrip

/-!
# Packet records survive the buffer

Packing a record fails for two reasons only, and both follow from its size. When it
succeeds it touches the words of the header and the trailer (`getElem?_packed`), and
whatever is put between them and behind them afterwards (`refill`), unpacking gives
the record back, with nothing in the fields that are absent (`pack_survives`).
-/

namespace SampleStream

section Splice
variable {α : Type}

/-- A splice changes nothing before and behind the part that it replaces. -/
theorem getElem?_splice_of_outside {xs new : List α} {start i : Nat}
    (hroom : start + new.length ≤ xs.length) (hout : i < start ∨ start + new.length ≤ i) :
    (splice xs start new)[i]? = xs[i]? := by
  rcases hout with hbefore | hbehind
  · have htake : (splice xs start new).take start = xs.take start :=
      take_splice (by omega) (Nat.le_refl _)
    rw [← List.getElem?_take_of_lt hbefore, htake, List.getElem?_take_of_lt hbefore]
  · obtain ⟨more, rfl⟩ := Nat.exists_eq_add_of_le hbehind
    have hdrop := drop_splice (by omega : start ≤ xs.length) (Nat.le_refl (start + new.length))
    rw [← List.getElem?_drop, hdrop, List.getElem?_drop]

end Splice

/-- Words are equal when the bytes under them are. -/
theorem ByteOrder.wordAt_congr (order : ByteOrder) {p q : Bytes} {j k : Nat}
    (h : (p.drop (4 * j)).take 4 = (q.drop (4 * k)).take 4) :
    order.wordAt p j = order.wordAt q k := by
  rw [wordAt_eq_take, wordAt_eq_take, h]

namespace Header

variable {order : ByteOrder} {h : Header} {n : Nat} {buffer : Bytes}

/-! ## What packing does -/

/-- The buffer with the words of the header and the trailer in it. -/
def packed (order : ByteOrder) (h : Header) (n : Nat) (buffer : Bytes) : Bytes :=
  match h.trailer with
  | none => headed order h n buffer
  | some trailer =>
    splice (headed order h n buffer) (4 * ((h.extent n).total - 1)) (order.wordBytes trailer)

/-- The three answers of packing: what they are and when they are given. -/
theorem pack_cases (order : ByteOrder) (buffer : Bytes) (hsize : (h.extent n).total < sizeLimit) :
    (maxPacketWords < (h.extent n).total ∧ h.pack order n buffer = some (.error .badHeader)) ∨
      ((h.extent n).total ≤ maxPacketWords ∧ buffer.length < 4 * (h.extent n).total ∧
        h.pack order n buffer =
          some (.error (.tooShort (buffer.length / 4) (h.extent n).total))) ∨
      ((h.extent n).total ≤ maxPacketWords ∧ 4 * (h.extent n).total ≤ buffer.length ∧
        h.pack order n buffer = some (.ok (packed order h n buffer))) := by
  have hfit : fitSize (h.extent n).total = some (h.extent n).total :=
    fitSize_eq_some.mpr ⟨hsize, rfl⟩
  simp only [pack, hfit, bind, Option.bind_some]
  by_cases hlong : maxPacketWords < (h.extent n).total
  · exact .inl ⟨hlong, if_pos hlong⟩
  · have hsmall := Nat.le_of_not_lt hlong
    rw [if_neg hlong]
    by_cases hshort : buffer.length < 4 * (h.extent n).total
    · exact .inr (.inl ⟨hsmall, hshort, if_pos hshort⟩)
    · refine .inr (.inr ⟨hsmall, Nat.le_of_not_lt hshort, ?_⟩)
      rw [if_neg hshort]
      rfl

theorem pack_packed (order : ByteOrder) (hsmall : (h.extent n).total ≤ maxPacketWords)
    (hroom : 4 * (h.extent n).total ≤ buffer.length) :
    h.pack order n buffer = some (.ok (packed order h n buffer)) := by
  have hsize : (h.extent n).total < sizeLimit := Nat.lt_of_le_of_lt hsmall (by decide)
  rcases pack_cases order buffer hsize with ⟨hlong, -⟩ | ⟨-, hshort, -⟩ | ⟨-, -, hpack⟩
  · omega
  · omega
  · exact hpack

/-- What packing leaves as it was: the payload and everything behind the packet. -/
theorem getElem?_packed (order : ByteOrder) (hroom : 4 * (h.extent n).total ≤ buffer.length)
    {i : Nat} (hpayload : 4 * h.size ≤ i)
    (hout : i < 4 * (h.size + n) ∨ 4 * (h.extent n).total ≤ i) :
    (packed order h n buffer)[i]? = buffer[i]? := by
  have htotal := total_extent h n
  have hwords : (order.wordsBytes (h.headerWords n)).length = 4 * h.size := by
    rw [ByteOrder.length_wordsBytes, length_headerWords]
  have hheaded : (headed order h n buffer)[i]? = buffer[i]? :=
    getElem?_splice_of_outside (by omega) (by omega)
  unfold packed
  cases htrailer : h.trailer with
  | none => exact hheaded
  | some trailer =>
    have hlast : (h.extent n).total = h.size + n + 1 := by rw [htotal, htrailer]; rfl
    have hlength := length_headed order hroom
    have hword := order.length_wordBytes trailer
    dsimp only
    rw [getElem?_splice_of_outside (by omega) (by omega), hheaded]

/-! ## What may be put into a packet -/

/-- A packet of the header `h` with other bytes in the payload and behind the packet. -/
def refill (h : Header) (n : Nat) (packet payload behind : Bytes) : Bytes :=
  packet.take (4 * h.size) ++ payload
    ++ (packet.drop (4 * (h.size + n))).take (4 * h.trailer.isSome.toNat) ++ behind

section Refill
variable {packet payload behind : Bytes}

theorem length_refill (behind : Bytes) (hfits : 4 * (h.extent n).total ≤ packet.length)
    (hpayload : payload.length = 4 * n) :
    (refill h n packet payload behind).length = 4 * (h.extent n).total + behind.length := by
  have htotal := total_extent h n
  simp only [refill, List.length_append, List.length_take, List.length_drop]
  omega

/-- Neither the payload nor what is behind the packet is part of the header. -/
theorem Written.refill (hw : Written order h n packet) (hpayload : payload.length = 4 * n) :
    Written order h n (h.refill n packet payload behind) := by
  have htotal := total_extent h n
  have hfits := hw.fits
  have hlength := length_refill behind hfits hpayload
  refine ⟨by omega, hw.small, fun k w hk => ?_, fun w ht => ?_⟩
  · obtain ⟨hlt, -⟩ := List.getElem?_eq_some_iff.mp hk
    rw [length_headerWords] at hlt
    rw [← hw.words k w hk]
    apply order.wordAt_congr
    -- the four bytes of the word lie in the part that was kept
    have hfront : (packet.take (4 * h.size)).length = 4 * h.size := by
      rw [List.length_take]
      omega
    rw [Header.refill, List.append_assoc, List.append_assoc,
      List.drop_append_of_le_length (by omega),
      List.take_append_of_le_length (by rw [List.length_drop]; omega), List.drop_take,
      List.take_take, Nat.min_eq_left (by omega)]
  · have hsome : h.trailer.isSome.toNat = 1 := by rw [ht]; rfl
    have hlast : (h.extent n).total - 1 = h.size + n := by omega
    have hfront : (packet.take (4 * h.size) ++ payload).length = 4 * (h.size + n) := by
      rw [List.length_append, List.length_take]
      omega
    rw [← hw.trailer w ht, hlast]
    apply order.wordAt_congr
    rw [Header.refill, hsome, List.append_assoc, List.drop_left' hfront,
      List.take_append_of_le_length (by rw [List.length_take, List.length_drop]; omega),
      List.take_take, Nat.min_self]

theorem payloadOf_refill (behind : Bytes) (hfits : 4 * (h.extent n).total ≤ packet.length)
    (hpayload : payload.length = 4 * n) :
    (h.extent n).payloadOf (refill h n packet payload behind) = some payload := by
  have htotal := total_extent h n
  have hlength := length_refill behind hfits hpayload
  have hfront : (packet.take (4 * h.size)).length = 4 * h.size := by
    rw [List.length_take]
    omega
  refine slice_eq_some.mpr ⟨?_, ?_⟩
  · change 4 * h.size + 4 * n ≤ _
    omega
  · change ((refill h n packet payload behind).drop (4 * h.size)).take (4 * n) = payload
    rw [refill, List.append_assoc, List.append_assoc, List.drop_left' hfront, ← hpayload,
      List.take_left]

end Refill

end Header

namespace PacketRecord

/-! ## Records and their headers -/

@[simp] theorem isSome_present {α : Type} (flag : Bool) (value : α) :
    (present flag value).isSome = flag := by
  cases flag <;> rfl

@[simp] theorem getD_present {α : Type} (flag : Bool) (value default : α) :
    (present flag value).getD default = if flag then value else default := by
  cases flag <;> rfl

variable {order : ByteOrder} {r : PacketRecord} {buffer : Bytes}

theorem carriesStreamId_of_context (hclass : r.packetClass = .context) :
    r.carriesStreamId = true := by
  simp [carriesStreamId, hclass]

/-- The header of a record has the stream identifier that it needs. -/
theorem completed_header (r : PacketRecord) : r.header.completed = r.header := by
  unfold Header.completed
  split
  · rename_i hclass
    have hid : r.header.streamId = some r.streamId := by
      have hcarries := carriesStreamId_of_context (show r.packetClass = .context from hclass)
      simp [header, present, hcarries]
    rw [hid, Option.getD_some, ← hid]
  · rfl

theorem size_header (r : PacketRecord) : r.header.size = r.impliedHeaderWords := by
  rw [Header.size, completed_header, Header.length_fieldWords]
  simp only [header, isSome_present, impliedHeaderWords]
  omega

theorem extent_header (r : PacketRecord) :
    r.header.extent r.payloadWords =
      ⟨r.impliedHeaderWords, r.payloadWords, r.hasTrailer.toNat⟩ := by
  rw [Header.extent, size_header]
  simp only [header, isSome_present]

theorem total_header (r : PacketRecord) :
    (r.header.extent r.payloadWords).total = r.impliedWords := by
  rw [extent_header]
  rfl

/-- The record with the flag of the stream identifier that packing sets. -/
def flagged (r : PacketRecord) : PacketRecord := { r with hasStreamId := r.carriesStreamId }

/-- Setting the flag that a context packet has anyway changes nothing that travels. -/
theorem header_flagged (r : PacketRecord) : r.flagged.header = r.header := by
  simp [flagged, header, carriesStreamId]

/-- The record as a call that wrote it leaves it. -/
def sized (r : PacketRecord) : PacketRecord :=
  { r.flagged with headerWords := r.impliedHeaderWords, packetWords := r.impliedWords }

/-- The record with zero in every field that is absent. -/
def cleared (r : PacketRecord) : PacketRecord :=
  { r with
    streamId := if r.hasStreamId then r.streamId else 0
    classId := if r.hasClassId then r.classId else 0
    wholeTime := if r.hasWholeTime then r.wholeTime else 0
    fractionalTime := if r.hasFractionalTime then r.fractionalTime else 0
    trailer := if r.hasTrailer then r.trailer else 0 }

/-! ## Packing a record -/

theorem pack_of_ok {packet : Bytes}
    (hpack : r.header.pack order r.payloadWords buffer = some (.ok packet)) :
    r.pack order buffer = some (r.sized, packet, .ok ()) := by
  have hflagged :
      r.flagged.header.pack order r.flagged.payloadWords buffer = some (.ok packet) := by
    rw [header_flagged]
    exact hpack
  have hextent : r.flagged.header.extent r.flagged.payloadWords =
      ⟨r.impliedHeaderWords, r.payloadWords, r.hasTrailer.toNat⟩ := by
    rw [header_flagged]
    exact extent_header r
  change (r.flagged.header.pack order r.flagged.payloadWords buffer).bind _ = _
  rw [hflagged, Option.bind_some]
  dsimp only
  change some ({ r.flagged with
    headerWords := (r.flagged.header.extent r.flagged.payloadWords).header
    packetWords := (r.flagged.header.extent r.flagged.payloadWords).total }, packet, _) = _
  rw [hextent]
  rfl

theorem pack_of_error {e : FramingError}
    (hpack : r.header.pack order r.payloadWords buffer = some (.error e)) :
    r.pack order buffer = some (r.flagged, buffer, .error e) := by
  have hflagged : r.flagged.header.pack order r.flagged.payloadWords buffer = some (.error e) := by
    rw [header_flagged]
    exact hpack
  change (r.flagged.header.pack order r.flagged.payloadWords buffer).bind _ = _
  rw [hflagged]
  rfl

/-! ## Reading a record back -/

theorem unpack_of_header {h : Header} {e : Extent} {packet : Bytes}
    (hunpack : Header.unpack order packet = .ok (h, e)) :
    unpack order packet = .ok (ofHeader h e) := by
  rw [unpack, hunpack]
  rfl

/-- What is read of a packet in which the header of `r` stands. -/
theorem unpack_of_written {packet : Bytes}
    (hw : Header.Written order r.header r.payloadWords packet) :
    unpack order packet =
      .ok ({ r.sized with
        count := UInt8.ofNat (r.count.toNat % 16)
        payloadBytes := 4 * r.payloadWords }).cleared := by
  rw [unpack_of_header (Header.unpack_of_written hw), completed_header, extent_header]
  simp only [ofHeader, header, isSome_present, getD_present, cleared, sized, flagged]
  rfl

/-- What may be put into a packet of this record: any payload, and anything behind. -/
def refill (r : PacketRecord) (packet payload behind : Bytes) : Bytes :=
  r.header.refill r.payloadWords packet payload behind

/-- Packing a record, and unpacking it after anything was put into the payload and
behind the packet. The record is refused when the packet is too long for its size
field, or else for the buffer, and then the buffer is as it was. Otherwise packing
touches the header and the trailer only, and unpacking gives the record that packing
left, with its count modulo 16 and nothing in its absent fields. -/
theorem pack_survives (order : ByteOrder) (r : PacketRecord) (buffer : Bytes)
    (hsize : r.impliedWords < sizeLimit) :
    ∃ written packet answer, r.pack order buffer = some (written, packet, answer) ∧
      (answer = .error .badHeader ↔ maxPacketWords < r.impliedWords) ∧
      (answer = .error (.tooShort (buffer.length / 4) r.impliedWords) ↔
        r.impliedWords ≤ maxPacketWords ∧ buffer.length < 4 * r.impliedWords) ∧
      (answer = .ok () ↔
        r.impliedWords ≤ maxPacketWords ∧ 4 * r.impliedWords ≤ buffer.length) ∧
      (answer ≠ .ok () → packet = buffer) ∧
      (answer = .ok () →
        written.headerWords = r.impliedHeaderWords ∧ written.packetWords = r.impliedWords ∧
        packet.length = buffer.length ∧
        (∀ i, 4 * r.impliedHeaderWords ≤ i →
          i < 4 * (r.impliedHeaderWords + r.payloadWords) ∨ 4 * r.impliedWords ≤ i →
          packet[i]? = buffer[i]?) ∧
        ∀ payload behind : Bytes, payload.length = 4 * r.payloadWords →
          ∃ read, unpack order (r.refill packet payload behind) = .ok read ∧
            read = ({ r with
              hasStreamId := r.hasStreamId || r.packetClass == .context
              headerWords := written.headerWords
              packetWords := written.packetWords
              payloadBytes := 4 * r.payloadWords
              count := UInt8.ofNat (r.count.toNat % 16) } : PacketRecord).cleared ∧
            read.payload (r.refill packet payload behind) = some payload) := by
  have htotal := total_header r
  rw [← htotal] at hsize
  rcases Header.pack_cases order buffer hsize with
    ⟨hlong, hpack⟩ | ⟨hsmall, hshort, hpack⟩ | ⟨hsmall, hroom, hpack⟩
  · rw [htotal] at hlong
    refine ⟨r.flagged, buffer, _, pack_of_error hpack, by simp [hlong], ?_, ?_, fun _ => rfl, nofun⟩
    · simp [Nat.not_le.mpr hlong]
    · simp [Nat.not_le.mpr hlong]
  · rw [htotal] at hsmall hshort hpack
    refine ⟨r.flagged, buffer, _, pack_of_error hpack, ?_, by simp [hsmall, hshort], ?_,
      fun _ => rfl, nofun⟩
    · simp [Nat.not_lt.mpr hsmall]
    · simp [Nat.not_le.mpr hshort]
  · obtain ⟨hwritten, hlength⟩ := Header.written_of_pack hpack
    have hframe (i : Nat) (hi : 4 * r.header.size ≤ i) := Header.getElem?_packed order hroom hi
    simp only [size_header, htotal] at hframe
    rw [htotal] at hsmall hroom
    refine ⟨r.sized, _, .ok (), pack_of_ok hpack, ?_, ?_, by simp [hsmall, hroom],
      fun hfailed => absurd rfl hfailed, fun _ => ?_⟩
    · simp [Nat.not_lt.mpr hsmall]
    · simp [Nat.not_lt.mpr hroom]
    · refine ⟨rfl, rfl, hlength, hframe, fun payload behind hpayload => ?_⟩
      refine ⟨_, unpack_of_written (hwritten.refill hpayload), rfl, ?_⟩
      have hgot := Header.payloadOf_refill behind hwritten.fits hpayload
      rw [extent_header] at hgot
      exact hgot

/-- A context packet without the flag of its stream identifier, with a class
identifier and sizes left over from another packet. -/
def leftOver : PacketRecord where
  packetClass := .context
  payloadWords := 1
  payloadBytes := 60
  headerWords := 7
  packetWords := 22
  count := 0x13
  endOfBurst := true
  streamId := 7
  classId := 5
  hasFractionalTime := true
  fractionalTime := 0x100000002
  hasTrailer := true
  trailer := 0xcafe

theorem pack_survives_leftOver :
    leftOver.impliedWords < sizeLimit ∧
      ∃ written packet, leftOver.pack .big (List.replicate 25 0xaa) = some (written, packet, .ok ()) ∧
        unpack .big (leftOver.refill packet [1, 2, 3, 4] [9]) =
          .ok { packetClass := .context, payloadWords := 1, payloadBytes := 4, headerWords := 4,
                packetWords := 6, count := 3, endOfBurst := true, hasStreamId := true,
                streamId := 7, hasFractionalTime := true, fractionalTime := 0x100000002,
                hasTrailer := true, trailer := 0xcafe } := by
  have hsize : leftOver.impliedWords < sizeLimit := by decide
  obtain ⟨written, packet, answer, hpack, -, -, hok, -, hsurvives⟩ :=
    pack_survives .big leftOver (List.replicate 25 0xaa) hsize
  have hanswer : answer = .ok () := hok.mpr (by decide)
  obtain ⟨hheader, htotal, -, -, hread⟩ := hsurvives hanswer
  obtain ⟨read, hunpack, rfl, -⟩ := hread [1, 2, 3, 4] [9] rfl
  refine ⟨hsize, written, packet, hanswer ▸ hpack, ?_⟩
  rw [hunpack, hheader, htotal]
  exact congrArg Except.ok (by decide)

end PacketRecord
end SampleStream
