import SampleStream.Proofs.Benchmark.Packets
import SampleStream.Proofs.Packet.Canonical

/-!
# Which benchmark packets are intact

A packet is found intact under a sequence number just if its count and its payload are
those of the packet that is built for the number (`check_eq_some_iff`). The payloads of
two numbers differ in more than one word as soon as there is a word to count up
(`seq_of_set`), so that one changed word takes the payload to that of no number at all.
Main statement: `check_exact`.
-/

namespace SampleStream

/-! ## Words in a splice -/

/-- Writing into a piece of a list is writing the changed piece. -/
theorem splice_within {α : Type} {xs item new : List α} {start k : Nat}
    (hitem : slice xs start item.length = some item) (hroom : k + new.length ≤ item.length) :
    splice xs (start + k) new = splice xs start (splice item k new) := by
  obtain ⟨hinside, htake⟩ := slice_eq_some.mp hitem
  have hsplit : xs.drop start = item ++ xs.drop (start + item.length) :=
    calc xs.drop start
        = (xs.drop start).take item.length ++ (xs.drop start).drop item.length := by
          rw [List.take_append_drop]
      _ = item ++ xs.drop (start + item.length) := by rw [htake, List.drop_drop]
  have hfront : xs.take (start + k) = xs.take start ++ item.take k := by
    rw [List.take_add, hsplit, List.take_append_of_le_length (by omega)]
  have hbehind : xs.drop (start + k + new.length) =
      item.drop (k + new.length) ++ xs.drop (start + item.length) := by
    rw [Nat.add_assoc, ← List.drop_drop, hsplit, List.drop_append_of_le_length hroom]
  rw [splice, hfront, hbehind, splice, length_splice hroom, splice]
  simp only [List.append_assoc]

namespace ByteOrder

/-- Bytes are those of some words just if the words are read from them. -/
theorem eq_wordsBytes_iff (order : ByteOrder) {ws : List UInt32} {bytes : Bytes}
    (hlength : bytes.length = 4 * ws.length) :
    bytes = order.wordsBytes ws ↔ ∀ k w, ws[k]? = some w → order.wordAt bytes k = w := by
  constructor
  · rintro rfl k w hk
    obtain ⟨hlt, rfl⟩ := List.getElem?_eq_some_iff.mp hk
    have hword := order.wordAt_wordsBytes ws [] k hlt
    rwa [List.append_nil] at hword
  · intro hwords
    have htake : order.wordsBytes ws = (bytes.drop (4 * 0)).take (4 * ws.length) :=
      order.wordsBytes_eq_take (by omega) fun k w hk => by rw [Nat.zero_add, hwords k w hk]
    rw [htake, Nat.mul_zero, List.drop_zero, ← hlength, List.take_length]

theorem wordsBytes_inj (order : ByteOrder) {ws vs : List UInt32} (hlength : ws.length = vs.length)
    (h : order.wordsBytes ws = order.wordsBytes vs) : ws = vs := by
  refine List.ext_getElem hlength fun k hk hk' => ?_
  have hword := order.wordAt_wordsBytes ws [] k hk
  rw [h, order.wordAt_wordsBytes vs [] k hk'] at hword
  exact hword.symm

theorem wordAt_splice_self (order : ByteOrder) {bytes : Bytes} {k : Nat}
    (hroom : 4 * (k + 1) ≤ bytes.length) (w : UInt32) :
    order.wordAt (splice bytes (4 * k) (order.wordBytes w)) k = w := by
  have hfront : (bytes.take (4 * k)).length = 4 * k := by
    rw [List.length_take]
    omega
  rw [wordAt, splice, List.append_assoc, List.drop_left' hfront, word_wordBytes]

/-- Writing the bytes of a word changes the word. -/
theorem splice_wordsBytes (order : ByteOrder) {ws : List UInt32} {k : Nat} (hk : k < ws.length)
    (w : UInt32) :
    splice (order.wordsBytes ws) (4 * k) (order.wordBytes w) = order.wordsBytes (ws.set k w) := by
  have hlength := order.length_wordsBytes ws
  have hword := order.length_wordBytes w
  have hroom : 4 * k + (order.wordBytes w).length ≤ (order.wordsBytes ws).length := by omega
  rw [eq_wordsBytes_iff order (by rw [length_splice hroom, hlength, List.length_set])]
  intro j v hj
  rcases Nat.lt_trichotomy j k with hlt | rfl | hgt
  · rw [List.getElem?_set_ne (by omega)] at hj
    rw [order.wordAt_splice_before (by omega) (by omega)]
    exact (order.eq_wordsBytes_iff hlength).mp rfl j v hj
  · rw [List.getElem?_set_self hk] at hj
    rw [order.wordAt_splice_self (by omega)]
    exact Option.some.inj hj
  · rw [List.getElem?_set_ne (by omega)] at hj
    rw [order.wordAt_splice_after (by omega) (by omega)]
    exact (order.eq_wordsBytes_iff hlength).mp rfl j v hj

end ByteOrder

namespace Benchmark.Plan

variable {p : Plan} {seq : UInt32} {packet : Bytes}

/-! ## Building -/

/-- The words of the packet with sequence number `seq`, header included. -/
theorem total_extent_header (p : Plan) (seq : UInt32) :
    ((p.header seq).extent (p.payloadWords + 1)).total = p.payloadWords + 3 := by
  change 2 + (p.payloadWords + 1) + 0 = p.payloadWords + 3
  omega

/-- Whether packets can be built is decided by the words that they carry. -/
theorem packet_ok_iff :
    (∃ packet, p.packet seq = some (.ok packet)) ↔ p.payloadWords + 3 ≤ maxPacketWords := by
  constructor
  · rintro ⟨packet, h⟩
    simp only [Plan.packet, bind, Option.bind_eq_some_iff] at h
    obtain ⟨payloadWords, hwords, h⟩ := h
    obtain ⟨-, rfl⟩ := addSize_eq_some.mp hwords
    obtain ⟨hsmall, -⟩ := Header.unpack_frame
      (fun payload hpayload => by
        rw [← Option.some.inj hpayload, length_wordsBytes_words]) h
    rwa [total_extent_header] at hsmall
  · intro hsmall
    have hmax : maxPacketWords < sizeLimit := by decide
    have hwords : addSize p.payloadWords 1 = some (p.payloadWords + 1) :=
      addSize_eq_some.mpr ⟨by omega, rfl⟩
    obtain ⟨packet, hpacket⟩ : ∃ packet, (p.header seq).frame p.order (p.payloadWords + 1)
        (fun _ => some (p.order.wordsBytes (p.words seq))) = some (.ok packet) :=
      Header.frame_of_small p.order (by rwa [total_extent_header]) rfl
    exact ⟨packet, by simp only [Plan.packet, hwords, bind, Option.bind_some, hpacket]⟩

/-- What is read of a packet that is intact under the sequence number `seq`. -/
structure Carries (p : Plan) (seq : UInt32) (packet : Bytes) (h : Header) (extent : Extent) :
    Prop where
  unpack : Header.unpack p.order packet = .ok (h, extent)
  payloadWords : extent.payload = p.payloadWords + 1
  count : h.count.toNat = seq.toNat % 16
  payload : extent.payloadOf packet = some (p.order.wordsBytes (p.words seq))

theorem toNat_lowBits (seq : UInt32) : (seq &&& 0xf).toUInt8.toNat = seq.toNat % 16 := by
  have hand : (seq &&& 0xf).toNat = seq.toNat % 16 := Nat.and_two_pow_sub_one_eq_mod seq.toNat 4
  rw [UInt32.toNat_toUInt8, hand]
  omega

/-- The header, the extent and the payload of what was built. -/
theorem packet_parts (h : p.packet seq = some (.ok packet)) :
    let extent := (p.header seq).extent (p.payloadWords + 1)
    let header := { (p.header seq).completed with
      count := UInt8.ofNat ((p.header seq).count.toNat % 16) }
    Carries p seq packet header extent ∧
      ∀ payload : Bytes, payload.length = 4 * (p.payloadWords + 1) →
        Header.unpack p.order (splice packet (4 * extent.header) payload) =
            .ok (header, extent) ∧
          extent.payloadOf (splice packet (4 * extent.header) payload) = some payload := by
  simp only [Plan.packet, bind, Option.bind_eq_some_iff] at h
  obtain ⟨payloadWords, hwords, h⟩ := h
  obtain ⟨-, rfl⟩ := addSize_eq_some.mp hwords
  have hfill : ∀ payload, some (p.order.wordsBytes (p.words seq)) = some payload →
      payload.length = 4 * (p.payloadWords + 1) := by
    intro payload hpayload
    rw [← Option.some.inj hpayload, length_wordsBytes_words]
  obtain ⟨-, -, payload, hpayload, hunpack, hread⟩ := Header.unpack_frame hfill h
  obtain rfl := Option.some.inj hpayload
  refine ⟨⟨hunpack, rfl, ?_, hread⟩, fun payload hlength => ?_⟩
  · rw [count_header, toNat_lowBits]
  · exact Header.unpack_splice_frame hfill h hlength

/-! ## Checking -/

/-- A payload is that of a sequence number just if its first word is the number and the
others count up from it. -/
theorem eq_wordsBytes_words_iff {payload : Bytes}
    (hlength : payload.length = 4 * (p.payloadWords + 1)) :
    payload = p.order.wordsBytes (p.words seq) ↔
      p.order.wordAt payload 0 = seq ∧ p.countsUp seq (payload.drop 4) = true := by
  have hbehind (k : Nat) : p.order.wordAt (payload.drop 4) k = p.order.wordAt payload (k + 1) := by
    rw [ByteOrder.wordAt, ByteOrder.wordAt, List.drop_drop, Nat.mul_add, Nat.add_comm]
  rw [p.order.eq_wordsBytes_iff (by rw [hlength, length_words]), countsUp_iff]
  constructor
  · intro hwords
    refine ⟨hwords 0 seq rfl, fun k hk => ?_⟩
    have hlt : k + 1 < (p.words seq).length := by
      rw [length_words]
      omega
    rw [hbehind, hwords (k + 1) _ (List.getElem?_eq_getElem hlt), getElem_words_succ]
  · rintro ⟨hfirst, hcount⟩ k w hk
    obtain ⟨hlt, rfl⟩ := List.getElem?_eq_some_iff.mp hk
    cases k with
    | zero => exact hfirst
    | succ k =>
      rw [length_words] at hlt
      rw [← hbehind, hcount k (by omega), getElem_words_succ]

/-- A packet is intact under a sequence number just if it carries what the number asks
for. -/
theorem check_eq_some_iff :
    p.check packet = some seq ↔ ∃ h extent, Carries p seq packet h extent := by
  constructor
  · intro hcheck
    unfold check at hcheck
    split at hcheck
    · cases hcheck
    · rename_i h extent hunpack
      obtain ⟨payload, hpayload⟩ := Header.payloadOf_of_unpack hunpack
      rw [hpayload] at hcheck
      by_cases hwords : extent.payload = p.payloadWords + 1
      · rw [if_neg (not_not_intro hwords)] at hcheck
        have hlength : payload.length = 4 * (p.payloadWords + 1) := by
          rw [length_of_slice hpayload, hwords]
        dsimp only [bind, Option.bind] at hcheck
        split at hcheck
        · cases hcheck
        · rename_i hcount
          split at hcheck
          · rename_i hup
            obtain rfl := Option.some.inj hcheck
            refine ⟨h, extent, hunpack, hwords, ?_, ?_⟩
            · rw [← Decidable.not_not.mp hcount, toNat_lowBits]
            · rw [hpayload]
              exact congrArg some ((eq_wordsBytes_words_iff hlength).mpr ⟨rfl, hup⟩)
          · cases hcheck
      · rw [if_pos hwords] at hcheck
        cases hcheck
  · rintro ⟨h, extent, hunpack, hwords, hcount, hpayload⟩
    obtain ⟨hfirst, hup⟩ := (eq_wordsBytes_words_iff (length_wordsBytes_words p seq)).mp rfl
    have hlow : (seq &&& 0xf).toUInt8 = h.count := by
      apply UInt8.toNat_inj.mp
      rw [toNat_lowBits, hcount]
    simp only [check, hunpack, hwords, hpayload, hfirst, hlow, hup, ne_eq, not_true_eq_false,
      if_false, if_true, bind, Option.bind_some]

/-- One other word does not take the words of a number to those of another number, when
there is a word to count up. -/
theorem eq_getElem_of_set (hpos : 1 ≤ p.payloadWords) {seq' w : UInt32} {k : Nat}
    (hk : k < (p.words seq).length) (h : (p.words seq).set k w = p.words seq') :
    w = (p.words seq)[k] := by
  have hword (j : Nat) (hj : j < (p.words seq).length) :
      ((p.words seq).set k w)[j]? = (p.words seq')[j]? := by rw [h]
  have hlength := length_words p seq
  -- whichever word is changed, the first or the second one still says which number it is
  have hseq : k ≠ 0 → seq' = seq := by
    intro hne
    have hfirst := hword 0 (by omega)
    rw [List.getElem?_set_ne hne] at hfirst
    exact (Option.some.inj hfirst).symm
  have hchanged := hword k hk
  rw [List.getElem?_set_self hk] at hchanged
  cases k with
  | zero =>
    have hsecond := hword 1 (by omega)
    rw [List.getElem?_set_ne (by omega), List.getElem?_eq_getElem (by omega),
      List.getElem?_eq_getElem (by rw [length_words]; omega), getElem_words_succ,
      getElem_words_succ] at hsecond
    have hsame : seq = seq' := by simpa using hsecond
    subst hsame
    exact Option.some.inj hchanged
  | succ k =>
    obtain rfl := hseq (by omega)
    rw [List.getElem?_eq_getElem hk] at hchanged
    exact Option.some.inj hchanged

/-! ## The packets of a plan -/

/-- How exactly the packets of a plan are checked. -/
structure Exact (p : Plan) : Prop where
  /-- Every sequence number has a packet, and it is found intact under that number. Its
  payload counts up from the number, modulo `2 ^ 32`. -/
  built : ∀ seq, ∃ packet h extent, p.packet seq = some (.ok packet) ∧
    Header.unpack p.order packet = .ok (h, extent) ∧ p.check packet = some seq ∧
    p.order.wordAt packet extent.header = seq ∧
    ∀ k < p.payloadWords,
      (p.order.wordAt packet (extent.header + (k + 1))).toNat = (seq.toNat + k) % 2 ^ 32
  /-- Any bytes are intact under a number just if they can be read, with a payload of the
  right length, the count of the number and the payload that is built for it. -/
  intact : ∀ packet seq, p.check packet = some seq ↔
    ∃ h extent, Header.unpack p.order packet = .ok (h, extent) ∧
      extent.payload = p.payloadWords + 1 ∧ h.count.toNat = seq.toNat % 16 ∧
      ∃ built h' extent', p.packet seq = some (.ok built) ∧
        Header.unpack p.order built = .ok (h', extent') ∧
        extent.payloadOf packet = extent'.payloadOf built
  /-- With a word to count up, no word of a payload can be changed unnoticed, the sequence
  number itself among them. -/
  changed : 1 ≤ p.payloadWords → ∀ seq packet h extent k w, p.packet seq = some (.ok packet) →
    Header.unpack p.order packet = .ok (h, extent) → k < extent.payload →
    w ≠ p.order.wordAt packet (extent.header + k) →
    p.check (splice packet (4 * (extent.header + k)) (p.order.wordBytes w)) = none

/-- The words of a payload are words of the packet. -/
theorem Carries.wordAt {h : Header} {extent : Extent} (hc : Carries p seq packet h extent)
    {k : Nat} (hk : k < (p.words seq).length) :
    p.order.wordAt packet (extent.header + k) = (p.words seq)[k] := by
  have hword := p.order.wordAt_wordsBytes (p.words seq) [] k hk
  have hwords := hc.payloadWords
  rw [length_words] at hk
  obtain ⟨-, hpayload⟩ := slice_eq_some.mp hc.payload
  rw [List.append_nil, ← hpayload, p.order.wordAt_take _ (by omega), ByteOrder.wordAt,
    List.drop_drop, ← Nat.mul_add] at hword
  exact hword

/-- A changed word changes the payload to that of no number. -/
theorem check_of_changed (hpos : 1 ≤ p.payloadWords) (hpacket : p.packet seq = some (.ok packet))
    {h : Header} {extent : Extent} (hunpack : Header.unpack p.order packet = .ok (h, extent))
    {k : Nat} (hk : k < extent.payload) {w : UInt32}
    (hw : w ≠ p.order.wordAt packet (extent.header + k)) :
    p.check (splice packet (4 * (extent.header + k)) (p.order.wordBytes w)) = none := by
  obtain ⟨hcarries, hother⟩ := packet_parts hpacket
  cases hunpack.symm.trans hcarries.unpack
  have hk' : k < (p.words seq).length := by
    rw [length_words, ← hcarries.payloadWords]
    exact hk
  have hslice := hcarries.payload
  rw [Extent.payloadOf, hcarries.payloadWords, ← length_wordsBytes_words p seq] at hslice
  have hroom : 4 * k + (p.order.wordBytes w).length ≤
      (p.order.wordsBytes (p.words seq)).length := by
    rw [ByteOrder.length_wordBytes, ByteOrder.length_wordsBytes]
    omega
  rw [Nat.mul_add, splice_within hslice hroom, p.order.splice_wordsBytes hk']
  cases hcheck : p.check (splice packet _ (p.order.wordsBytes ((p.words seq).set k w))) with
  | none => rfl
  | some seq' =>
    obtain ⟨h', extent', hcarries'⟩ := check_eq_some_iff.mp hcheck
    obtain ⟨hunpack', hread⟩ := hother (p.order.wordsBytes ((p.words seq).set k w)) (by
      rw [ByteOrder.length_wordsBytes, List.length_set, length_words])
    cases hcarries'.unpack.symm.trans hunpack'
    have hbytes := Option.some.inj (hread.symm.trans hcarries'.payload)
    have hwords := p.order.wordsBytes_inj (by simp) hbytes
    exact absurd ((eq_getElem_of_set hpos hk' hwords).trans (hcarries.wordAt hk').symm) hw

/-- As soon as one packet of a plan can be built, all can, each is found intact under its
own number and nothing else is found intact under it. -/
theorem check_exact (p : Plan) (hbuilds : ∃ seq packet, p.packet seq = some (.ok packet)) :
    Exact p := by
  obtain ⟨seq₀, hbuilt₀⟩ := hbuilds
  have hbuilds (seq : UInt32) : ∃ packet, p.packet seq = some (.ok packet) :=
    packet_ok_iff.mpr (packet_ok_iff.mp hbuilt₀)
  refine ⟨fun seq => ?_, fun packet seq => ?_, ?_⟩
  · obtain ⟨packet, hpacket⟩ := hbuilds seq
    obtain ⟨hcarries, -⟩ := packet_parts hpacket
    refine ⟨packet, _, _, hpacket, hcarries.unpack, check_packet hpacket, ?_, fun k hk => ?_⟩
    · exact hcarries.wordAt (k := 0) (by simp)
    · have hlt : k + 1 < (p.words seq).length := by
        rw [length_words]
        omega
      rw [hcarries.wordAt hlt, getElem_words_succ, UInt32.toNat_add, UInt32.toNat_ofNat',
        Nat.add_mod_mod]
  · obtain ⟨built, hbuilt⟩ := hbuilds seq
    obtain ⟨hcarries, -⟩ := packet_parts hbuilt
    rw [check_eq_some_iff]
    constructor
    · rintro ⟨h, extent, hunpack, hwords, hcount, hpayload⟩
      exact ⟨h, extent, hunpack, hwords, hcount, built, _, _, hbuilt, hcarries.unpack,
        hpayload.trans hcarries.payload.symm⟩
    · rintro ⟨h, extent, hunpack, hwords, hcount, built', h', extent', hbuilt', hunpack', hsame⟩
      cases hbuilt'.symm.trans hbuilt
      cases hunpack'.symm.trans hcarries.unpack
      exact ⟨h, extent, hunpack, hwords, hcount, hsame.trans hcarries.payload⟩
  · intro hpos seq packet h extent k w hpacket hunpack hk hw
    exact check_of_changed hpos hpacket hunpack hk hw

/-- Packets of three words, the least significant byte first. -/
def countingTwo : Plan := { payloadWords := 2, order := .little }

/-- The packet with the greatest sequence number, whose words count past the end. -/
def lastPacket : Bytes :=
  [5, 0, 15, 16, 0, 16, 0, 0, 255, 255, 255, 255, 255, 255, 255, 255, 0, 0, 0, 0]

/-- Changing the sequence number of the last packet to the next one, zero, is noticed. -/
theorem check_exact_lastPacket :
    countingTwo.packet 0xffffffff = some (.ok lastPacket) ∧ Exact countingTwo ∧
      countingTwo.check lastPacket = some 0xffffffff ∧
      countingTwo.check (splice lastPacket 8 [0, 0, 0, 0]) = none := by
  have hpacket : countingTwo.packet 0xffffffff = some (.ok lastPacket) := by rfl
  have hexact := check_exact countingTwo ⟨_, _, hpacket⟩
  obtain ⟨packet, h, extent, hbuilt, hunpack, hcheck, hfirst, -⟩ := hexact.built 0xffffffff
  cases hbuilt.symm.trans hpacket
  have hheader : Header.unpack .little lastPacket =
      .ok ({ Header.forData 0x1000 with count := 15 }, ⟨2, 3, 0⟩) := by rfl
  cases hunpack.symm.trans hheader
  have hne : (0 : UInt32) ≠ countingTwo.order.wordAt lastPacket (2 + 0) := by
    rw [hfirst]
    decide
  exact ⟨hpacket, hexact, hcheck,
    hexact.changed (by decide) _ _ _ _ 0 0 hpacket hunpack (by decide) hne⟩

end Benchmark.Plan
end SampleStream
