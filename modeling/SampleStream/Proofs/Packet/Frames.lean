import SampleStream.Proofs.Packet.Record

/-!
# Reading frames back

A frame is a packet in a buffer of its own size. It is refused only when it has too many
words (`frame_error`), and otherwise it is read back with the header it was made with and
with the payload that was filled in (`unpack_frame`).
-/

namespace SampleStream.Header

variable {order : ByteOrder} {hdr : Header} {n : Nat}

theorem blank_cases {result : Except FramingError Bytes} (h : hdr.blank order n = some result) :
    (maxPacketWords < (hdr.extent n).total ∧ result = .error .badHeader) ∨
      ((hdr.extent n).total ≤ maxPacketWords ∧
        hdr.pack order n (List.replicate (4 * (hdr.extent n).total) 0) = some result) := by
  simp only [blank, bind, Option.bind_eq_some_iff] at h
  obtain ⟨total, htotal, size, hsize, size', hstorage, h⟩ := h
  obtain ⟨-, rfl⟩ := fitSize_eq_some.mp htotal
  obtain ⟨-, rfl⟩ := mulSize_eq_some.mp hsize
  have hstored : (hdr.extent n).total * 4 = size' := by
    unfold fitStorage at hstorage
    split at hstorage <;> cases hstorage
    rfl
  by_cases hlong : maxPacketWords < (hdr.extent n).total
  · rw [if_pos hlong] at h
    cases h
    exact .inl ⟨hlong, rfl⟩
  · rw [if_neg hlong, ← hstored, Nat.mul_comm] at h
    exact .inr ⟨Nat.le_of_not_lt hlong, h⟩

theorem blank_ok {packet : Bytes} (h : hdr.blank order n = some (.ok packet)) :
    Written order hdr n packet ∧ packet.length = 4 * (hdr.extent n).total := by
  rcases blank_cases h with ⟨-, hresult⟩ | ⟨-, hpack⟩
  · cases hresult
  · obtain ⟨hwritten, hlength⟩ := written_of_pack hpack
    exact ⟨hwritten, by rw [hlength, List.length_replicate]⟩

/-- A header is refused only because the packet has too many words. -/
theorem blank_error {e : FramingError} (h : hdr.blank order n = some (.error e)) :
    maxPacketWords < (hdr.extent n).total := by
  rcases blank_cases h with ⟨hlong, -⟩ | ⟨hsmall, hpack⟩
  · exact hlong
  · -- the buffer is as long as the packet, so that nothing else is in the way
    simp only [pack, bind, Option.bind_eq_some_iff] at hpack
    obtain ⟨total, htotal, hpack⟩ := hpack
    obtain ⟨-, rfl⟩ := fitSize_eq_some.mp htotal
    rw [if_neg (Nat.not_lt.mpr hsmall), List.length_replicate, if_neg (Nat.lt_irrefl _)] at hpack
    cases hpack

/-- A packet with too many words is refused, if its bytes could be stored. -/
theorem blank_of_long (order : ByteOrder) (hlong : maxPacketWords < (hdr.extent n).total)
    (hstored : (hdr.extent n).total * 4 < storageLimit) :
    hdr.blank order n = some (.error .badHeader) := by
  have hlimit : storageLimit ≤ sizeLimit := by decide
  have htotal : fitSize (hdr.extent n).total = some (hdr.extent n).total :=
    fitSize_eq_some.mpr ⟨by omega, rfl⟩
  have hsize : mulSize (hdr.extent n).total 4 = some ((hdr.extent n).total * 4) :=
    mulSize_eq_some.mpr ⟨by omega, rfl⟩
  have hstorage : fitStorage ((hdr.extent n).total * 4) = some ((hdr.extent n).total * 4) :=
    if_pos hstored
  simp only [blank, htotal, hsize, hstorage, if_pos hlong, bind, Option.bind_some, pure]

/-- What the header says fits into the frame that it was read from. -/
theorem payloadOf_of_unpack {frame : Bytes} {extent : Extent}
    (hunpack : unpack order frame = .ok (hdr, extent)) :
    ∃ payload, extent.payloadOf frame = some payload := by
  unfold unpack at hunpack
  dsimp only at hunpack
  split at hunpack
  · cases hunpack
  · split at hunpack
    · cases hunpack
    · split at hunpack
      · cases hunpack
      · rename_i hsize
        cases hunpack
        refine ⟨_, slice_eq_some.mpr ⟨?_, rfl⟩⟩
        dsimp only
        omega

/-- A packet that has not too many words is packed. -/
theorem blank_of_small (order : ByteOrder) (hsmall : (hdr.extent n).total ≤ maxPacketWords) :
    ∃ packet, hdr.blank order n = some (.ok packet) := by
  have hmax : maxPacketWords < sizeLimit := by decide
  have hlimit : maxPacketWords * 4 < storageLimit := by decide
  have hsizes : storageLimit ≤ sizeLimit := by decide
  have hbytes : (hdr.extent n).total * 4 < storageLimit := by omega
  have htotal : fitSize (hdr.extent n).total = some (hdr.extent n).total :=
    fitSize_eq_some.mpr ⟨Nat.lt_of_le_of_lt hsmall hmax, rfl⟩
  have hsize : mulSize (hdr.extent n).total 4 = some ((hdr.extent n).total * 4) :=
    mulSize_eq_some.mpr ⟨Nat.lt_of_lt_of_le hbytes hsizes, rfl⟩
  have hstorage : fitStorage ((hdr.extent n).total * 4) = some ((hdr.extent n).total * 4) :=
    if_pos hbytes
  have hroom : 4 * (hdr.extent n).total ≤
      (List.replicate ((hdr.extent n).total * 4) (0 : UInt8)).length := by
    exact Nat.le_of_eq ((Nat.mul_comm ..).trans List.length_replicate.symm)
  refine ⟨packed order hdr n (List.replicate ((hdr.extent n).total * 4) 0), ?_⟩
  simp only [blank, htotal, hsize, hstorage, if_neg (Nat.not_lt.mpr hsmall),
    pack_packed order hsmall hroom, bind, Option.bind_some]

variable {fill : Bytes → Checked Bytes}

theorem frame_error {e : FramingError} (h : hdr.frame order n fill = some (.error e)) :
    maxPacketWords < (hdr.extent n).total := by
  simp only [frame, bind, Option.bind_eq_some_iff] at h
  obtain ⟨result, hblank, h⟩ := h
  cases result with
  | error e => exact blank_error hblank
  | ok packet =>
    simp only [Option.bind_eq_some_iff] at h
    obtain ⟨payload, -, h⟩ := h
    cases h

theorem frame_of_long (order : ByteOrder) (fill : Bytes → Checked Bytes)
    (hlong : maxPacketWords < (hdr.extent n).total)
    (hstored : (hdr.extent n).total * 4 < storageLimit) :
    hdr.frame order n fill = some (.error .badHeader) := by
  simp only [frame, blank_of_long order hlong hstored, bind, Option.bind_some, pure]

/-- Which packets can be framed is a matter of their size. -/
theorem frame_of_small (order : ByteOrder) (hsmall : (hdr.extent n).total ≤ maxPacketWords)
    {payload : Bytes} (hfill : fill (List.replicate (4 * n) 0) = some payload) :
    ∃ frame, hdr.frame order n fill = some (.ok frame) := by
  obtain ⟨packet, hblank⟩ := blank_of_small order hsmall
  refine ⟨splice packet (4 * hdr.size) payload, ?_⟩
  simp only [frame, hblank, hfill, bind, Option.bind_some, pure]

/-- A frame whose payload keeps its size is read back. -/
theorem unpack_frame {bytes : Bytes}
    (hfill : ∀ payload, fill (List.replicate (4 * n) 0) = some payload → payload.length = 4 * n)
    (h : hdr.frame order n fill = some (.ok bytes)) :
    (hdr.extent n).total ≤ maxPacketWords ∧ bytes.length = 4 * (hdr.extent n).total ∧
      ∃ payload, fill (List.replicate (4 * n) 0) = some payload ∧
        unpack order bytes =
          .ok ({ hdr.completed with count := UInt8.ofNat (hdr.count.toNat % 16) },
            hdr.extent n) ∧
        (hdr.extent n).payloadOf bytes = some payload := by
  simp only [frame, bind, Option.bind_eq_some_iff] at h
  obtain ⟨result, hblank, h⟩ := h
  cases result with
  | error e => cases h
  | ok packet =>
    simp only [Option.bind_eq_some_iff] at h
    obtain ⟨payload, hpayload, h⟩ := h
    cases h
    obtain ⟨hwritten, hlength⟩ := blank_ok hblank
    have hsize := hfill payload hpayload
    have htotal := total_extent hdr n
    have hroom : 4 * hdr.size + payload.length ≤ packet.length := by omega
    exact ⟨hwritten.small, (length_splice hroom).trans hlength, payload, hpayload,
      unpack_of_written (hwritten.splice_payload hsize), payloadOf_splice hwritten hsize⟩

/-- A frame with another payload is read with the same header, and with that payload. -/
theorem unpack_splice_frame {bytes : Bytes}
    (hfill : ∀ payload, fill (List.replicate (4 * n) 0) = some payload → payload.length = 4 * n)
    (h : hdr.frame order n fill = some (.ok bytes)) {payload : Bytes}
    (hlength : payload.length = 4 * n) :
    unpack order (splice bytes (4 * hdr.size) payload) =
        .ok ({ hdr.completed with count := UInt8.ofNat (hdr.count.toNat % 16) }, hdr.extent n) ∧
      (hdr.extent n).payloadOf (splice bytes (4 * hdr.size) payload) = some payload := by
  simp only [frame, bind, Option.bind_eq_some_iff] at h
  obtain ⟨result, hblank, h⟩ := h
  cases result with
  | error e => cases h
  | ok packet =>
    simp only [Option.bind_eq_some_iff] at h
    obtain ⟨old, hold, h⟩ := h
    cases h
    obtain ⟨hwritten, -⟩ := blank_ok hblank
    have hframe := hwritten.splice_payload (hfill old hold)
    exact ⟨unpack_of_written (hframe.splice_payload hlength), payloadOf_splice hframe hlength⟩

end SampleStream.Header
