import SampleStream.Packet.Frame

/-!
# Reading back what was packed

A packet holds a header when its words stand where they belong (`Header.Written`).
Packing writes them, and neither the payload nor anything behind the packet is among
them, so whatever is put there afterwards, unpacking finds the header again
(`unpack_of_written`) and the payload that was put in (`payloadOf_splice`).
-/

namespace SampleStream

/-! ## Words and splices -/

section Splice
variable {α : Type}

theorem take_splice {xs new : List α} {start n : Nat} (hstart : start ≤ xs.length)
    (hn : n ≤ start) : (splice xs start new).take n = xs.take n := by
  rw [splice, List.append_assoc, List.take_append_of_le_length (by simp; omega), List.take_take,
    Nat.min_eq_left hn]

theorem drop_splice {xs new : List α} {start n : Nat} (hstart : start ≤ xs.length)
    (hn : start + new.length ≤ n) : (splice xs start new).drop n = xs.drop n := by
  obtain ⟨more, rfl⟩ := Nat.exists_eq_add_of_le hn
  have hfront : (xs.take start ++ new).length = start + new.length := by
    simp [Nat.min_eq_left hstart]
  rw [splice, ← hfront, List.drop_length_add_append, List.drop_drop, hfront]

theorem splice_splice {xs : List α} {start : Nat} (hstart : start ≤ xs.length)
    (front more : List α) :
    splice (splice xs start front) (start + front.length) more =
      splice xs start (front ++ more) := by
  have hfront : (xs.take start ++ front).length = start + front.length := by
    rw [List.length_append, List.length_take, Nat.min_eq_left hstart]
  have hbehind : (splice xs start front).drop (start + front.length + more.length) =
      xs.drop (start + (front ++ more).length) := by
    rw [drop_splice hstart (by omega), List.length_append, Nat.add_assoc]
  rw [splice, hbehind, splice, List.take_left' hfront, splice, List.append_assoc (xs.take start)]

/-- A piece of what was written over a list is a piece of what was written. -/
theorem slice_splice_inside {xs new item : List α} {start k size : Nat}
    (hroom : start + new.length ≤ xs.length) (h : slice new k size = some item) :
    slice (splice xs start new) (start + k) size = some item := by
  obtain ⟨hinside, rfl⟩ := slice_eq_some.mp h
  refine slice_eq_some.mpr ⟨?_, ?_⟩
  · rw [length_splice hroom]
    omega
  · have hstart : (xs.take start).length = start := by
      rw [List.length_take]
      omega
    have hrest : size ≤ (new.drop k).length := by
      rw [List.length_drop]
      omega
    rw [splice, List.append_assoc, ← List.drop_drop, List.drop_left' hstart,
      List.drop_append_of_le_length (by omega), List.take_append_of_le_length hrest]

theorem slice_splice {xs new : List α} {start : Nat} (hstart : start + new.length ≤ xs.length) :
    slice (splice xs start new) start new.length = some new := by
  have hwhole : slice new 0 new.length = some new :=
    slice_eq_some.mpr ⟨by omega, List.take_length⟩
  exact slice_splice_inside hstart hwhole

end Splice

namespace ByteOrder

/-- A word is read from four bytes only. -/
theorem wordAt_eq_take (order : ByteOrder) (bytes : Bytes) (k : Nat) :
    order.wordAt bytes k = order.word ((bytes.drop (4 * k)).take 4) := by
  have hfront : (((bytes.drop (4 * k)).take 4) ++ [0, 0, 0, 0]).take 4 =
      ((bytes.drop (4 * k)) ++ [0, 0, 0, 0]).take 4 := by
    by_cases hlen : (bytes.drop (4 * k)).length ≤ 4
    · rw [List.take_of_length_le hlen]
    · rw [List.take_append_of_le_length (by simp at hlen ⊢; omega), List.take_take, Nat.min_self,
        List.take_append_of_le_length (by omega)]
  rw [wordAt, word, word, hfront]

theorem wordAt_splice_before (order : ByteOrder) {bytes new : Bytes} {start k : Nat}
    (hstart : start ≤ bytes.length) (hk : 4 * (k + 1) ≤ start) :
    order.wordAt (splice bytes start new) k = order.wordAt bytes k := by
  have hcut (bs : Bytes) : (bs.drop (4 * k)).take 4 = (bs.take (4 * k + 4)).drop (4 * k) := by
    rw [List.drop_take, Nat.add_sub_cancel_left]
  rw [wordAt_eq_take, hcut, take_splice hstart (by omega), ← hcut, ← wordAt_eq_take]

theorem wordAt_splice_after (order : ByteOrder) {bytes new : Bytes} {start k : Nat}
    (hstart : start ≤ bytes.length) (hk : start + new.length ≤ 4 * k) :
    order.wordAt (splice bytes start new) k = order.wordAt bytes k := by
  rw [wordAt, drop_splice hstart hk, wordAt]

end ByteOrder

namespace Header

/-! ## Where the words stand -/

/-- The words of the header of a packet with `n` words of payload. -/
def headerWords (h : Header) (n : Nat) : List UInt32 :=
  h.completed.firstWord (h.extent n).total :: h.completed.fieldWords

@[simp] theorem length_headerWords (h : Header) (n : Nat) : (h.headerWords n).length = h.size := by
  simp [headerWords, size, Nat.add_comm]

/-- The words of the header and the trailer of a packet with `n` words of payload
stand where they belong. -/
structure Written (order : ByteOrder) (h : Header) (n : Nat) (packet : Bytes) : Prop where
  fits : 4 * (h.extent n).total ≤ packet.length
  small : (h.extent n).total ≤ maxPacketWords
  words : ∀ (k : Nat) (w : UInt32), (h.headerWords n)[k]? = some w → order.wordAt packet k = w
  trailer : ∀ w, h.trailer = some w → order.wordAt packet ((h.extent n).total - 1) = w

variable {order : ByteOrder} {h : Header} {n : Nat} {buffer packet : Bytes}

theorem total_extent (h : Header) (n : Nat) :
    (h.extent n).total = h.size + n + h.trailer.isSome.toNat := rfl

/-- The buffer with the words of the header at its front. -/
def headed (order : ByteOrder) (h : Header) (n : Nat) (buffer : Bytes) : Bytes :=
  splice buffer 0 (order.wordsBytes (h.headerWords n))

theorem length_headed (order : ByteOrder) (hroom : 4 * (h.extent n).total ≤ buffer.length) :
    (headed order h n buffer).length = buffer.length := by
  have htotal := total_extent h n
  have hbytes : (order.wordsBytes (h.headerWords n)).length = 4 * h.size := by
    rw [ByteOrder.length_wordsBytes, length_headerWords]
  exact length_splice (by omega)

theorem wordAt_headed {k : Nat} {w : UInt32} (hk : (h.headerWords n)[k]? = some w) :
    order.wordAt (headed order h n buffer) k = w := by
  obtain ⟨hlt, rfl⟩ := List.getElem?_eq_some_iff.mp hk
  rw [headed, splice, List.take_zero, List.nil_append]
  exact order.wordAt_wordsBytes _ _ k hlt

theorem written_headed (hroom : 4 * (h.extent n).total ≤ buffer.length)
    (hsmall : (h.extent n).total ≤ maxPacketWords) (hnone : h.trailer = none) :
    Written order h n (headed order h n buffer) where
  fits := length_headed order hroom ▸ hroom
  small := hsmall
  words _ _ hk := wordAt_headed hk
  trailer _ hw := by
    rw [hnone] at hw
    cases hw

/-- The trailer goes behind the payload, so it touches no word of the header. -/
theorem written_trailed {trailer : UInt32} (hroom : 4 * (h.extent n).total ≤ buffer.length)
    (hsmall : (h.extent n).total ≤ maxPacketWords) (hsome : h.trailer = some trailer) :
    Written order h n (splice (headed order h n buffer) (4 * ((h.extent n).total - 1))
        (order.wordBytes trailer)) ∧
      (splice (headed order h n buffer) (4 * ((h.extent n).total - 1))
        (order.wordBytes trailer)).length = buffer.length := by
  have hheaded := length_headed order hroom
  have hlast : (h.extent n).total = h.size + n + 1 := by rw [total_extent, hsome]; rfl
  have hplace : 4 * ((h.extent n).total - 1) + (order.wordBytes trailer).length ≤
      (headed order h n buffer).length := by
    rw [ByteOrder.length_wordBytes, hheaded]
    omega
  have hlength := (length_splice hplace).trans hheaded
  refine ⟨⟨hlength ▸ hroom, hsmall, fun k w hk => ?_, fun w hw => ?_⟩, hlength⟩
  · obtain ⟨hlt, -⟩ := List.getElem?_eq_some_iff.mp hk
    rw [length_headerWords] at hlt
    rw [order.wordAt_splice_before (by omega) (by omega)]
    exact wordAt_headed hk
  · cases hsome.symm.trans hw
    rw [ByteOrder.wordAt, splice, List.append_assoc,
      List.drop_left' (by simp [hheaded]; omega), ByteOrder.word_wordBytes]

theorem written_of_pack (hpack : h.pack order n buffer = some (.ok packet)) :
    Written order h n packet ∧ packet.length = buffer.length := by
  simp only [pack, bind, Option.bind_eq_some_iff] at hpack
  obtain ⟨total, htotal, hpack⟩ := hpack
  obtain ⟨-, rfl⟩ := fitSize_eq_some.mp htotal
  split at hpack
  · cases hpack
  · rename_i hsmall
    have hsmall := Nat.le_of_not_lt hsmall
    split at hpack
    · cases hpack
    · rename_i hroom
      have hroom : 4 * (h.extent n).total ≤ buffer.length := Nat.le_of_not_lt hroom
      cases htrailer : h.trailer with
      | none =>
        simp only [htrailer, pure, Option.some.injEq, Except.ok.injEq] at hpack
        have hpacket : packet = headed order h n buffer := hpack.symm
        rw [hpacket]
        exact ⟨written_headed hroom hsmall htrailer, length_headed order hroom⟩
      | some trailer =>
        simp only [htrailer, pure, Option.some.injEq, Except.ok.injEq] at hpack
        have hpacket : packet = splice (headed order h n buffer) (4 * ((h.extent n).total - 1))
            (order.wordBytes trailer) := hpack.symm
        rw [hpacket]
        exact written_trailed hroom hsmall htrailer

/-- Neither the payload nor what is behind the packet is part of the header. -/
theorem Written.splice_payload {payload : Bytes} (hw : Written order h n packet)
    (hlength : payload.length = 4 * n) :
    Written order h n (splice packet (4 * h.size) payload) := by
  have htotal := total_extent h n
  have hfits := hw.fits
  have hroom : 4 * h.size + payload.length ≤ packet.length := by omega
  refine ⟨by rw [length_splice hroom]; exact hfits, hw.small, fun k w hk => ?_, fun w ht => ?_⟩
  · obtain ⟨hlt, -⟩ := List.getElem?_eq_some_iff.mp hk
    rw [length_headerWords] at hlt
    rw [order.wordAt_splice_before (by omega) (by omega)]
    exact hw.words k w hk
  · have hlast : (h.extent n).total = h.size + n + 1 := by rw [htotal, ht]; rfl
    rw [order.wordAt_splice_after (by omega) (by omega)]
    exact hw.trailer w ht

theorem payloadOf_splice {payload : Bytes} (hw : Written order h n packet)
    (hlength : payload.length = 4 * n) :
    (h.extent n).payloadOf (splice packet (4 * h.size) payload) = some payload := by
  have htotal := total_extent h n
  have hfits := hw.fits
  have hroom : 4 * h.size + payload.length ≤ packet.length := by omega
  have hslice := slice_splice hroom
  rw [hlength] at hslice
  exact hslice

/-! ## The first word -/

theorem toNat_firstWord (h : Header) {size : Nat} (hsize : size ≤ maxPacketWords) :
    (h.firstWord size).toNat =
      h.classCode * 2 ^ 28
        + h.classId.isSome.toNat * 2 ^ 27
        + h.trailer.isSome.toNat * 2 ^ 26
        + h.startOfBurst.toNat * 2 ^ 25
        + h.endOfBurst.toNat * 2 ^ 24
        + 3 * h.wholeTime.isSome.toNat * 2 ^ 22
        + h.fractionalTime.isSome.toNat * 2 ^ 20
        + h.count.toNat % 16 * 2 ^ 16
        + size := by
  have hcode : h.classCode ≤ 4 := by
    unfold classCode
    split
    · split <;> omega
    · split <;> omega
    · omega
  have hc := Bool.toNat_le h.classId.isSome
  have ht := Bool.toNat_le h.trailer.isSome
  have hs := Bool.toNat_le h.startOfBurst
  have he := Bool.toNat_le h.endOfBurst
  have hw := Bool.toNat_le h.wholeTime.isSome
  have hf := Bool.toNat_le h.fractionalTime.isSome
  have hn : h.count.toNat % 16 < 16 := Nat.mod_lt _ (by decide)
  rw [maxPacketWords] at hsize
  rw [firstWord, UInt32.toNat_ofNat']
  -- every part has its own bits, so the sum is a word
  apply Nat.mod_eq_of_lt
  omega

/-- What the first word is read as. -/
structure FirstWordReads (h : Header) (size : Nat) (w : UInt32) : Prop where
  code : w.toNat / 2 ^ 28 = h.classCode
  classId : flag w 27 = h.classId.isSome
  trailer : flag w 26 = h.trailer.isSome
  startOfBurst : flag w 25 = h.startOfBurst
  endOfBurst : flag w 24 = h.endOfBurst
  wholeTime : (w.toNat / 2 ^ 22 % 4 != 0) = h.wholeTime.isSome
  fractionalTime : (w.toNat / 2 ^ 20 % 4 != 0) = h.fractionalTime.isSome
  count : w.toNat / 2 ^ 16 % 16 = h.count.toNat % 16
  size : w.toNat % 2 ^ 16 = size

theorem beq_one_of_toNat {n : Nat} {b : Bool} (h : n = b.toNat) : (n == 1) = b := by
  cases b <;> simp [h]

theorem firstWord_reads (h : Header) {size : Nat} (hsize : size ≤ maxPacketWords) :
    FirstWordReads h size (h.firstWord size) := by
  have hword := toNat_firstWord h hsize
  have hc := Bool.toNat_le h.classId.isSome
  have ht := Bool.toNat_le h.trailer.isSome
  have hs := Bool.toNat_le h.startOfBurst
  have he := Bool.toNat_le h.endOfBurst
  have hw := Bool.toNat_le h.wholeTime.isSome
  have hf := Bool.toNat_le h.fractionalTime.isSome
  have hn : h.count.toNat % 16 < 16 := Nat.mod_lt _ (by decide)
  rw [maxPacketWords] at hsize
  -- from the top down, each quotient is made of the one before and the next part
  have hcode : (h.firstWord size).toNat / 2 ^ 28 = h.classCode := by omega
  have hclass : (h.firstWord size).toNat / 2 ^ 27 = 2 * h.classCode + h.classId.isSome.toNat := by
    omega
  have htrailer : (h.firstWord size).toNat / 2 ^ 26 =
      2 * ((h.firstWord size).toNat / 2 ^ 27) + h.trailer.isSome.toNat := by omega
  have hstart : (h.firstWord size).toNat / 2 ^ 25 =
      2 * ((h.firstWord size).toNat / 2 ^ 26) + h.startOfBurst.toNat := by omega
  have hend : (h.firstWord size).toNat / 2 ^ 24 =
      2 * ((h.firstWord size).toNat / 2 ^ 25) + h.endOfBurst.toNat := by omega
  have hwhole : (h.firstWord size).toNat / 2 ^ 22 =
      4 * ((h.firstWord size).toNat / 2 ^ 24) + 3 * h.wholeTime.isSome.toNat := by omega
  have hfraction : (h.firstWord size).toNat / 2 ^ 20 =
      4 * ((h.firstWord size).toNat / 2 ^ 22) + h.fractionalTime.isSome.toNat := by omega
  have hcount : (h.firstWord size).toNat / 2 ^ 16 =
      16 * ((h.firstWord size).toNat / 2 ^ 20) + h.count.toNat % 16 := by omega
  have hrest : (h.firstWord size).toNat % 2 ^ 16 = size := by omega
  refine ⟨hcode, beq_one_of_toNat ?_, beq_one_of_toNat ?_, beq_one_of_toNat ?_,
    beq_one_of_toNat ?_, ?_, ?_, ?_, hrest⟩
  · rw [hclass]
    omega
  · rw [htrailer]
    omega
  · rw [hstart]
    omega
  · rw [hend]
    omega
  · rw [hwhole, Nat.mul_add_mod]
    cases h.wholeTime.isSome <;> rfl
  · rw [hfraction, Nat.mul_add_mod]
    cases h.fractionalTime.isSome <;> rfl
  · rw [hcount]
    omega

/-- The class code of a header that has the stream identifier it needs. -/
theorem ofClassCode?_classCode (h : Header) :
    ofClassCode? h.completed.classCode = some (h.packetClass, h.completed.streamId.isSome) := by
  cases hclass : h.packetClass with
  | data => cases hid : h.streamId <;> simp [completed, classCode, hclass, hid, ofClassCode?]
  | extension => cases hid : h.streamId <;> simp [completed, classCode, hclass, hid, ofClassCode?]
  | context => simp [completed, classCode, hclass, ofClassCode?]

/-- Completing a header touches its stream identifier only. -/
theorem completed_eq (h : Header) : ∃ streamId, h.completed = { h with streamId } := by
  unfold completed
  split
  · exact ⟨_, rfl⟩
  · exact ⟨h.streamId, rfl⟩

/-! ## The words of the fields -/

theorem ofLongWords_longWords (n : UInt64) :
    ofLongWords (n >>> 32).toUInt32 n.toUInt32 = n := by
  apply UInt64.toNat_inj.mp
  have hn := n.toNat_lt
  have hlow : n.toNat % 2 ^ 32 < 2 ^ 32 := Nat.mod_lt _ (by decide)
  have hjoin := Nat.shiftLeft_add_eq_or_of_lt hlow (n.toNat / 2 ^ 32)
  simp only [Nat.shiftLeft_eq] at hjoin
  simp only [ofLongWords, UInt64.toNat_or, UInt64.toNat_shiftLeft, UInt32.toNat_toUInt64,
    UInt64.toNat_toUInt32, UInt64.toNat_shiftRight]
  have hupper : (n.toNat >>> (UInt64.toNat 32 % 64) % 2 ^ 32) <<< (UInt64.toNat 32 % 64) % 2 ^ 64 =
      n.toNat / 2 ^ 32 * 2 ^ 32 := by
    rw [show UInt64.toNat 32 % 64 = 32 from rfl, Nat.shiftRight_eq_div_pow, Nat.shiftLeft_eq]
    omega
  rw [hupper, ← hjoin]
  omega

theorem length_fieldWords (h : Header) :
    h.fieldWords.length = h.streamId.isSome.toNat + 2 * h.classId.isSome.toNat +
      h.wholeTime.isSome.toNat + 2 * h.fractionalTime.isSome.toNat := by
  cases hs : h.streamId <;> cases hc : h.classId <;> cases hw : h.wholeTime <;>
    cases hf : h.fractionalTime <;> simp [fieldWords, hs, hc, hw, hf, longWords]

theorem getElem?_streamId {h : Header} {w : UInt32} (hid : h.streamId = some w) :
    h.fieldWords[0]? = some w := by
  simp [fieldWords, hid]

theorem getElem?_classId {h : Header} {n : UInt64} (hid : h.classId = some n) :
    h.fieldWords[h.streamId.isSome.toNat]? = some (n >>> 32).toUInt32 ∧
      h.fieldWords[h.streamId.isSome.toNat + 1]? = some n.toUInt32 := by
  cases hs : h.streamId <;> simp [fieldWords, hs, hid, longWords]

theorem getElem?_wholeTime {h : Header} {w : UInt32} (htime : h.wholeTime = some w) :
    h.fieldWords[h.streamId.isSome.toNat + 2 * h.classId.isSome.toNat]? = some w := by
  cases hs : h.streamId <;> cases hc : h.classId <;>
    simp [fieldWords, hs, hc, htime, longWords]

theorem getElem?_fractionalTime {h : Header} {n : UInt64} (htime : h.fractionalTime = some n) :
    h.fieldWords[h.streamId.isSome.toNat + 2 * h.classId.isSome.toNat +
        h.wholeTime.isSome.toNat]? = some (n >>> 32).toUInt32 ∧
      h.fieldWords[h.streamId.isSome.toNat + 2 * h.classId.isSome.toNat +
        h.wholeTime.isSome.toNat + 1]? = some n.toUInt32 := by
  cases hs : h.streamId <;> cases hc : h.classId <;> cases hw : h.wholeTime <;>
    simp [fieldWords, hs, hc, hw, htime, longWords]

/-! ## Unpacking -/

/-- A field that is read where its flag is set. -/
theorem ite_isSome_eq {α : Type} {x : Option α} {v : α} (hv : ∀ a, x = some a → v = a) :
    (if x.isSome = true then some v else none) = x := by
  cases x with
  | none => rfl
  | some a => rw [Option.isSome_some, if_pos rfl, hv a rfl]

theorem Written.word (hw : Written order h n packet) {k : Nat} {w : UInt32}
    (hk : h.completed.fieldWords[k]? = some w) : order.wordAt packet (1 + k) = w :=
  hw.words (1 + k) w (by rw [headerWords, Nat.add_comm, List.getElem?_cons_succ, hk])

theorem Written.ite_streamId (hw : Written order h n packet) :
    (if h.completed.streamId.isSome = true then some (order.wordAt packet 1) else none) =
      h.completed.streamId :=
  ite_isSome_eq fun _ hid => hw.word (getElem?_streamId hid)

theorem Written.ite_classId (hw : Written order h n packet) :
    (if h.completed.classId.isSome = true then
      some (ofLongWords (order.wordAt packet (1 + h.completed.streamId.isSome.toNat))
        (order.wordAt packet (1 + h.completed.streamId.isSome.toNat + 1))) else none) =
      h.completed.classId := by
  refine ite_isSome_eq fun n hid => ?_
  obtain ⟨hupper, hlower⟩ := getElem?_classId hid
  rw [hw.word hupper, Nat.add_assoc, hw.word hlower, ofLongWords_longWords]

theorem Written.ite_wholeTime (hw : Written order h n packet) :
    (if h.completed.wholeTime.isSome = true then
      some (order.wordAt packet (1 + h.completed.streamId.isSome.toNat +
        2 * h.completed.classId.isSome.toNat)) else none) = h.completed.wholeTime := by
  refine ite_isSome_eq fun w htime => ?_
  rw [Nat.add_assoc, hw.word (getElem?_wholeTime htime)]

theorem Written.ite_fractionalTime (hw : Written order h n packet) :
    (if h.completed.fractionalTime.isSome = true then
      some (ofLongWords
        (order.wordAt packet (1 + h.completed.streamId.isSome.toNat +
          2 * h.completed.classId.isSome.toNat + h.completed.wholeTime.isSome.toNat))
        (order.wordAt packet (1 + h.completed.streamId.isSome.toNat +
          2 * h.completed.classId.isSome.toNat + h.completed.wholeTime.isSome.toNat + 1)))
      else none) = h.completed.fractionalTime := by
  refine ite_isSome_eq fun n htime => ?_
  obtain ⟨hupper, hlower⟩ := getElem?_fractionalTime htime
  simp only [Nat.add_assoc] at hupper hlower ⊢
  rw [hw.word hupper, hw.word hlower, ofLongWords_longWords]

theorem Written.ite_trailer (hw : Written order h n packet) :
    (if h.trailer.isSome = true then
      some (order.wordAt packet ((h.extent n).total - 1)) else none) = h.trailer :=
  ite_isSome_eq hw.trailer

/-- What is unpacked is the header that was written, with its count modulo 16. -/
theorem unpack_of_written (hw : Written order h n packet) :
    unpack order packet = .ok ({ h.completed with count := UInt8.ofNat (h.count.toNat % 16) },
      h.extent n) := by
  have hfirst : order.wordAt packet 0 = h.completed.firstWord (h.extent n).total :=
    hw.words 0 _ rfl
  have hreads := firstWord_reads h.completed hw.small
  have hsize : h.size = 1 + h.completed.fieldWords.length := rfl
  have htotal := total_extent h n
  have hfits := hw.fits
  obtain ⟨streamId, hcompleted⟩ := completed_eq h
  have hcount : h.completed.count = h.count := by rw [hcompleted]
  have htrailer : h.completed.trailer = h.trailer := by rw [hcompleted]
  have hclass := ofClassCode?_classCode h
  unfold unpack
  dsimp only
  -- the first word says which fields there are, and so where each of them stands
  rw [if_neg (by omega), hfirst, hreads.code, hclass]
  dsimp only
  rw [hreads.classId, hreads.trailer, hreads.startOfBurst, hreads.endOfBurst, hreads.wholeTime,
    hreads.fractionalTime, hreads.count, hreads.size]
  have hheader :
      1 + h.completed.streamId.isSome.toNat + 2 * h.completed.classId.isSome.toNat +
        h.completed.wholeTime.isSome.toNat + 2 * h.completed.fractionalTime.isSome.toNat =
      h.size := by
    rw [hsize, length_fieldWords]
    omega
  rw [hw.ite_streamId, hw.ite_classId, hw.ite_wholeTime, hw.ite_fractionalTime, htrailer,
    hw.ite_trailer, hheader, hcount, if_neg (by omega)]
  have hpayload : (h.extent n).total - h.size - h.trailer.isSome.toNat = n := by omega
  rw [hpayload, hcompleted]
  rfl

end Header
end SampleStream
