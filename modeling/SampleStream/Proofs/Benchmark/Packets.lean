import SampleStream.Benchmark.Packet
import SampleStream.Proofs.Packet.Frames
import SampleStream.Proofs.Sample.Decode

/-!
# Benchmark packets are intact

A packet that was built is found intact, and with the sequence number it was built for
(`check_packet`). Whatever comes off a link that loses and changes nothing is therefore
no data error.
-/

namespace SampleStream.Benchmark.Plan

variable {p : Plan} {seq : UInt32}

@[simp] theorem length_words (p : Plan) (seq : UInt32) :
    (p.words seq).length = p.payloadWords + 1 := by
  simp [words]

theorem getElem_words_succ {k : Nat} (hk : k + 1 < (p.words seq).length) :
    (p.words seq)[k + 1] = seq + UInt32.ofNat k := by
  simp [words]

theorem length_wordsBytes_words (p : Plan) (seq : UInt32) :
    (p.order.wordsBytes (p.words seq)).length = 4 * (p.payloadWords + 1) := by
  rw [ByteOrder.length_wordsBytes, length_words]

/-- The low bits of the sequence number are the packet count, and travel whole. -/
theorem count_header (p : Plan) (seq : UInt32) :
    UInt8.ofNat ((p.header seq).count.toNat % 16) = (seq &&& 0xf).toUInt8 := by
  have hlow : (seq &&& 0xf).toUInt8.toNat < 16 := by
    have hle : (seq &&& 0xf).toNat ≤ 15 := Nat.and_le_right
    rw [UInt32.toNat_toUInt8, Nat.mod_eq_of_lt (by omega)]
    omega
  rw [header, Nat.mod_eq_of_lt hlow, UInt8.ofNat_toNat]

/-- The words of a payload that count up are those after the sequence number. -/
theorem countsUp_iff {payload : Bytes} :
    p.countsUp seq payload = true ↔
      ∀ k < p.payloadWords, p.order.wordAt payload k = seq + UInt32.ofNat k := by
  have hpieces : (chunks 4 p.payloadWords payload).zip (List.range p.payloadWords) =
      (List.range p.payloadWords).map fun k => ((payload.drop (k * 4)).take 4, k) := by
    have hzip : ((List.range p.payloadWords).map fun k => (payload.drop (k * 4)).take 4).zip
        ((List.range p.payloadWords).map id) = _ := List.zip_map'
    rwa [List.map_id, ← chunks_eq_map] at hzip
  have hword (k : Nat) : p.order.word ((payload.drop (k * 4)).take 4) = p.order.wordAt payload k := by
    rw [p.order.word_take _ (Nat.le_refl 4), Nat.mul_comm, ByteOrder.wordAt]
  rw [countsUp, hpieces, List.all_map, List.all_eq_true]
  simp only [List.mem_range, Function.comp_apply, beq_iff_eq, hword]

/-- The words after the sequence number count up from it. -/
theorem countsUp_words (p : Plan) (seq : UInt32) :
    p.countsUp seq ((p.order.wordsBytes (p.words seq)).drop 4) = true := by
  rw [countsUp_iff]
  intro k hk
  have hword := p.order.wordAt_wordsBytes (p.words seq) [] (k + 1) (by simpa using hk)
  rw [List.append_nil, getElem_words_succ] at hword
  rw [← hword, ByteOrder.wordAt, ByteOrder.wordAt, List.drop_drop, Nat.mul_add, Nat.add_comm]

theorem check_packet {packet : Bytes} (h : p.packet seq = some (.ok packet)) :
    p.check packet = some seq := by
  simp only [Plan.packet, bind, Option.bind_eq_some_iff] at h
  obtain ⟨payloadWords, hwords, h⟩ := h
  obtain ⟨-, rfl⟩ := addSize_eq_some.mp hwords
  obtain ⟨-, -, payload, hpayload, hunpack, hread⟩ := Header.unpack_frame
    (fun payload hpayload => by
      rw [← Option.some.inj hpayload, length_wordsBytes_words]) h
  obtain rfl := Option.some.inj hpayload
  have hfirst : p.order.wordAt (p.order.wordsBytes (p.words seq)) 0 = seq := by
    have hword := p.order.wordAt_wordsBytes (p.words seq) [] 0 (by simp)
    rwa [List.append_nil] at hword
  have hextent : ((p.header seq).extent (p.payloadWords + 1)).payload = p.payloadWords + 1 := rfl
  simp only [check, hunpack, hread, hextent, hfirst, ne_eq, not_true_eq_false, if_false, bind,
    Option.bind_some, count_header, countsUp_words, if_true]

end SampleStream.Benchmark.Plan
