import SampleStream.Proofs.Packet.Record

/-!
# Packets in canonical form

Unpacking reads two class codes as context packets and every nonzero timestamp code
as a timestamp. Packing writes one code for each, so a packet that was read and is
packed again into its own bytes changes in the first word only, and there only in
these codes (`Canonical`). Main statement: `pack_of_unpack`.
-/

namespace SampleStream

/-! ## Bytes read and written again -/

/-- Putting back what stands there already changes nothing. -/
theorem splice_eq_self {α : Type} {xs new : List α} {start : Nat}
    (h : slice xs start new.length = some new) : splice xs start new = xs := by
  obtain ⟨-, hnew⟩ := slice_eq_some.mp h
  have hrest : new ++ xs.drop (start + new.length) = xs.drop start :=
    calc new ++ xs.drop (start + new.length)
        = (xs.drop start).take new.length ++ (xs.drop start).drop new.length := by
          rw [hnew, List.drop_drop]
      _ = xs.drop start := List.take_append_drop ..
  rw [splice, List.append_assoc, hrest, List.take_append_drop]

namespace ByteOrder

theorem decode_lt (order : ByteOrder) (bytes : Bytes) :
    order.decode bytes < 256 ^ bytes.length := by
  cases order with
  | big =>
    have h := ofAscending_lt bytes.reverse
    rwa [List.length_reverse] at h
  | little => exact ofAscending_lt bytes

/-- A word is written as the bytes it was read from, with zeros for those that are missing. -/
theorem wordBytes_word (order : ByteOrder) (bytes : Bytes) :
    order.wordBytes (order.word bytes) = (bytes ++ [0, 0, 0, 0]).take 4 := by
  have hlength : ((bytes ++ [0, 0, 0, 0]).take 4).length = 4 := by
    rw [List.length_take, List.length_append]
    exact Nat.min_eq_left (Nat.le_add_left ..)
  have hlt : order.decode ((bytes ++ [0, 0, 0, 0]).take 4) < 2 ^ 32 := by
    have h := order.decode_lt ((bytes ++ [0, 0, 0, 0]).take 4)
    rwa [hlength] at h
  have hencode := order.encode_decode ((bytes ++ [0, 0, 0, 0]).take 4)
  rw [hlength] at hencode
  rw [word, wordBytes, UInt32.toNat_ofNat', Nat.mod_eq_of_lt hlt, hencode]

theorem wordBytes_wordAt (order : ByteOrder) {bytes : Bytes} {k : Nat}
    (hroom : 4 * (k + 1) ≤ bytes.length) :
    order.wordBytes (order.wordAt bytes k) = (bytes.drop (4 * k)).take 4 := by
  rw [wordAt, wordBytes_word, List.take_append_of_le_length (by rw [List.length_drop]; omega)]

/-- Words that were read are written as the bytes they were read from. -/
theorem wordsBytes_eq_take (order : ByteOrder) {ws : List UInt32} {bytes : Bytes} {start : Nat}
    (hroom : 4 * (start + ws.length) ≤ bytes.length)
    (hwords : ∀ k w, ws[k]? = some w → order.wordAt bytes (start + k) = w) :
    order.wordsBytes ws = (bytes.drop (4 * start)).take (4 * ws.length) := by
  induction ws generalizing start with
  | nil => simp [wordsBytes]
  | cons w ws ih =>
    rw [List.length_cons] at hroom
    have hhead : order.wordAt bytes start = w := hwords 0 w rfl
    have htail : order.wordsBytes ws = (bytes.drop (4 * (start + 1))).take (4 * ws.length) := by
      refine ih (by omega) fun k w' hk => ?_
      rw [Nat.add_assoc, Nat.add_comm 1]
      exact hwords (k + 1) w' hk
    calc order.wordsBytes (w :: ws)
        = order.wordBytes w ++ order.wordsBytes ws := rfl
      _ = (bytes.drop (4 * start)).take 4 ++
            ((bytes.drop (4 * start)).drop 4).take (4 * ws.length) := by
          rw [← hhead, order.wordBytes_wordAt (by omega), htail, List.drop_drop, Nat.mul_add]
      _ = (bytes.drop (4 * start)).take (4 * (ws.length + 1)) := by
          rw [← List.take_add, Nat.mul_add, Nat.add_comm]

end ByteOrder

namespace Header

variable {order : ByteOrder} {h : Header} {n : Nat} {packet : Bytes}

/-! ## Packing over what is there -/

/-- All of a header but its first word stands where it belongs. -/
structure FieldsStand (order : ByteOrder) (h : Header) (n : Nat) (packet : Bytes) : Prop where
  fits : 4 * (h.extent n).total ≤ packet.length
  small : (h.extent n).total ≤ maxPacketWords
  fields : ∀ k w, h.completed.fieldWords[k]? = some w → order.wordAt packet (1 + k) = w
  trailer : ∀ w, h.trailer = some w → order.wordAt packet ((h.extent n).total - 1) = w

theorem Written.fieldsStand (hw : Written order h n packet) : FieldsStand order h n packet :=
  ⟨hw.fits, hw.small, fun _ _ hk => hw.word hk, hw.trailer⟩

/-- Packing then writes the first word only. -/
theorem FieldsStand.packed_eq (hs : FieldsStand order h n packet) :
    packed order h n packet =
      splice packet 0 (order.wordBytes (h.completed.firstWord (h.extent n).total)) := by
  have htotal := total_extent h n
  have hsize : h.size = 1 + h.completed.fieldWords.length := rfl
  have hfits := hs.fits
  have hfields := order.wordsBytes_eq_take (by omega) hs.fields
  have hheaded : headed order h n packet =
      splice packet 0 (order.wordBytes (h.completed.firstWord (h.extent n).total)) := by
    have hwords : order.wordsBytes (h.headerWords n) =
        order.wordBytes (h.completed.firstWord (h.extent n).total) ++
          (packet.drop 4).take (4 * h.completed.fieldWords.length) := by
      rw [← hfields]
      rfl
    have hlength : (order.wordsBytes (h.headerWords n)).length =
        4 + 4 * h.completed.fieldWords.length := by
      rw [ByteOrder.length_wordsBytes, length_headerWords]
      omega
    rw [headed, splice, splice, hlength, ByteOrder.length_wordBytes, hwords, Nat.zero_add,
      Nat.zero_add, ← List.drop_drop, List.append_assoc, List.append_assoc,
      List.take_append_drop, List.append_assoc]
  unfold packed
  cases htrailer : h.trailer with
  | none => exact hheaded
  | some trailer =>
    have hlast : (h.extent n).total = h.size + n + 1 := by rw [htotal, htrailer]; rfl
    have hword := order.length_wordBytes trailer
    dsimp only
    rw [hheaded]
    apply splice_eq_self
    have hat : order.wordBytes (order.wordAt packet ((h.extent n).total - 1)) =
        (packet.drop (4 * ((h.extent n).total - 1))).take 4 := order.wordBytes_wordAt (by omega)
    rw [hs.trailer trailer htrailer] at hat
    refine slice_eq_some.mpr ⟨?_, ?_⟩
    · rw [length_splice (by rw [ByteOrder.length_wordBytes]; omega), hword]
      omega
    · rw [drop_splice (by omega) (by rw [ByteOrder.length_wordBytes]; omega), hword, hat]

theorem Written.packed_eq (hw : Written order h n packet) : packed order h n packet = packet := by
  have hfirst : order.wordAt packet 0 = h.completed.firstWord (h.extent n).total :=
    hw.words 0 _ rfl
  have hfits := hw.fits
  have htotal := total_extent h n
  have hsize : h.size = 1 + h.completed.fieldWords.length := rfl
  rw [hw.fieldsStand.packed_eq, ← hfirst]
  apply splice_eq_self
  refine slice_eq_some.mpr ⟨by rw [ByteOrder.length_wordBytes]; omega, ?_⟩
  rw [order.wordBytes_wordAt (by omega), ← order.wordBytes_wordAt (by omega),
    ByteOrder.length_wordBytes, order.wordBytes_wordAt (by omega), List.drop_zero]

/-! ## What unpacking reads -/

/-- The first word of a packet of `total` words is read as that of `h`. -/
structure FirstWordOf (w : UInt32) (h : Header) (total : Nat) : Prop where
  code : ofClassCode? (w.toNat / 2 ^ 28) = some (h.packetClass, h.streamId.isSome)
  classId : h.classId.isSome = flag w 27
  trailer : h.trailer.isSome = flag w 26
  startOfBurst : h.startOfBurst = flag w 25
  endOfBurst : h.endOfBurst = flag w 24
  wholeTime : h.wholeTime.isSome = (w.toNat / 2 ^ 22 % 4 != 0)
  fractionalTime : h.fractionalTime.isSome = (w.toNat / 2 ^ 20 % 4 != 0)
  count : h.count = UInt8.ofNat (w.toNat / 2 ^ 16 % 16)
  size : total = w.toNat % 2 ^ 16

@[simp] theorem isSome_ite {α : Type} (b : Bool) (a : α) :
    (if b = true then some a else none).isSome = b := by
  cases b <;> rfl

theorem toNat_ofLongWords (upper lower : UInt32) :
    (ofLongWords upper lower).toNat = upper.toNat * 2 ^ 32 + lower.toNat := by
  have hupper := upper.toNat_lt
  have hjoin := Nat.shiftLeft_add_eq_or_of_lt lower.toNat_lt upper.toNat
  simp only [ofLongWords, UInt64.toNat_or, UInt64.toNat_shiftLeft, UInt32.toNat_toUInt64]
  rw [show UInt64.toNat 32 % 64 = 32 from rfl, Nat.mod_eq_of_lt (by rw [Nat.shiftLeft_eq]; omega),
    ← hjoin, Nat.shiftLeft_eq]

theorem longWords_ofLongWords (upper lower : UInt32) :
    longWords (ofLongWords upper lower) = [upper, lower] := by
  have hupper := upper.toNat_lt
  have hlower := lower.toNat_lt
  have hjoined := toNat_ofLongWords upper lower
  have hfirst : (ofLongWords upper lower >>> 32).toUInt32 = upper := by
    apply UInt32.toNat_inj.mp
    rw [UInt64.toNat_toUInt32, UInt64.toNat_shiftRight, hjoined,
      show UInt64.toNat 32 % 64 = 32 from rfl, Nat.shiftRight_eq_div_pow]
    omega
  have hsecond : (ofLongWords upper lower).toUInt32 = lower := by
    apply UInt32.toNat_inj.mp
    rw [UInt64.toNat_toUInt32, hjoined]
    omega
  rw [longWords, hfirst, hsecond]

/-- A field of one word that is read where its flag is set. -/
theorem toList_ite (word : Nat → UInt32) (b : Bool) (k : Nat) :
    (if b = true then some (word k) else none).toList = (List.range' k b.toNat).map word := by
  cases b <;> rfl

/-- A field of two words that is read where its flag is set. -/
theorem longWords_ite (word : Nat → UInt32) (b : Bool) (k : Nat) :
    ((if b = true then some (ofLongWords (word k) (word (k + 1))) else none).map longWords).getD [] =
      (List.range' k (2 * b.toNat)).map word := by
  cases b with
  | false => rfl
  | true => simp [longWords_ofLongWords, List.range']

/-- A class that always has a stream identifier was read with one. -/
theorem isSome_of_ofClassCode? (code : Nat) {b : Bool}
    (hcode : ofClassCode? code = some (.context, b)) : b = true := by
  unfold ofClassCode? at hcode
  split at hcode <;> cases hcode
  · rfl
  · rfl

theorem completed_of_isSome (hid : h.packetClass = .context → h.streamId.isSome = true) :
    h.completed = h := by
  unfold completed
  split
  · rename_i hclass
    obtain ⟨w, hw⟩ := Option.isSome_iff_exists.mp (hid hclass)
    rw [hw, Option.getD_some, ← hw]
  · rfl

/-- The fields that a packet announces: the stream identifier by its class, the others by the
flags of its first word. -/
structure Announced where
  streamId : Bool
  classId : Bool
  wholeTime : Bool
  fractionalTime : Bool
  trailer : Bool

/-- The words of the fields behind the first word. -/
def Announced.fields (a : Announced) : Nat :=
  a.streamId.toNat + 2 * a.classId.toNat + a.wholeTime.toNat + 2 * a.fractionalTime.toNat

/-- What a first word announces, for a class with or without stream identifier. -/
def announced (first : UInt32) (hasStream : Bool) : Announced where
  streamId := hasStream
  classId := flag first 27
  wholeTime := first.toNat / 2 ^ 22 % 4 != 0
  fractionalTime := first.toNat / 2 ^ 20 % 4 != 0
  trailer := flag first 26

/-- The fields of the header are those announced, each off the word behind the fields before
it, and the trailer off the last of `total` words. -/
structure ReadOff (word : Nat → UInt32) (a : Announced) (total : Nat) (h : Header) : Prop where
  streamId : h.streamId = if a.streamId then some (word 1) else none
  classId : h.classId =
    if a.classId then
      some (ofLongWords (word (1 + a.streamId.toNat)) (word (1 + a.streamId.toNat + 1)))
    else none
  wholeTime : h.wholeTime =
    if a.wholeTime then some (word (1 + a.streamId.toNat + 2 * a.classId.toNat)) else none
  fractionalTime : h.fractionalTime =
    let fractionAt := 1 + a.streamId.toNat + 2 * a.classId.toNat + a.wholeTime.toNat
    if a.fractionalTime then some (ofLongWords (word fractionAt) (word (fractionAt + 1))) else none
  trailer : h.trailer = if a.trailer then some (word (total - 1)) else none

namespace ReadOff

variable {word : Nat → UInt32} {a : Announced} {total : Nat} (hread : ReadOff word a total h)
include hread

theorem isSome_streamId : h.streamId.isSome = a.streamId := by
  rw [hread.streamId, isSome_ite]

theorem isSome_classId : h.classId.isSome = a.classId := by
  rw [hread.classId, isSome_ite]

theorem isSome_wholeTime : h.wholeTime.isSome = a.wholeTime := by
  rw [hread.wholeTime, isSome_ite]

theorem isSome_fractionalTime : h.fractionalTime.isSome = a.fractionalTime := by
  rw [hread.fractionalTime, isSome_ite]

theorem isSome_trailer : h.trailer.isSome = a.trailer := by
  rw [hread.trailer, isSome_ite]

/-- The words of the fields follow the first word one after the other. -/
theorem fieldWords : h.fieldWords = (List.range' 1 a.fields).map word := by
  rw [Header.fieldWords, hread.streamId, hread.classId, hread.wholeTime, hread.fractionalTime,
    toList_ite, longWords_ite, toList_ite, longWords_ite, ← List.map_append, ← List.map_append,
    ← List.map_append, List.range'_append_1, Nat.add_assoc 1, List.range'_append_1,
    Nat.add_assoc 1, List.range'_append_1, Announced.fields]

/-- A field word stands where it was read. -/
theorem word_of_fieldWords {k : Nat} {w : UInt32} (hk : h.fieldWords[k]? = some w) :
    word (1 + k) = w := by
  rw [hread.fieldWords] at hk
  obtain ⟨hlt, hw⟩ := List.getElem?_eq_some_iff.mp hk
  rwa [List.getElem_map, List.getElem_range', Nat.one_mul] at hw

theorem word_of_trailer {w : UInt32} (hw : h.trailer = some w) : word (total - 1) = w := by
  rw [hread.trailer, Option.ite_none_right_eq_some] at hw
  exact Option.some.inj hw.2

end ReadOff

/-- What unpacking does with a packet that it accepts. -/
theorem readOff_of_unpack {e : Extent} {first : UInt32} (hfirst : order.wordAt packet 0 = first)
    (hunpack : unpack order packet = .ok (h, e)) :
    ∃ hasStream, ofClassCode? (first.toNat / 2 ^ 28) = some (h.packetClass, hasStream) ∧
      ReadOff (order.wordAt packet) (announced first hasStream) (first.toNat % 2 ^ 16) h ∧
      h.startOfBurst = flag first 25 ∧ h.endOfBurst = flag first 24 ∧
      h.count = UInt8.ofNat (first.toNat / 2 ^ 16 % 16) ∧
      e.header = 1 + (announced first hasStream).fields ∧
      e.trailer = (announced first hasStream).trailer.toNat ∧
      e.total = first.toNat % 2 ^ 16 ∧ e.total ≤ packet.length / 4 := by
  unfold unpack at hunpack
  rw [hfirst] at hunpack
  dsimp only at hunpack
  by_cases hempty : packet.length / 4 = 0
  · rw [if_pos hempty] at hunpack
    cases hunpack
  rw [if_neg hempty] at hunpack
  cases hcode : ofClassCode? (first.toNat / 2 ^ 28) with
  | none =>
    rw [hcode] at hunpack
    cases hunpack
  | some found =>
    obtain ⟨packetClass, hasStream⟩ := found
    rw [hcode] at hunpack
    dsimp only at hunpack
    split at hunpack
    · cases hunpack
    · rename_i hroom
      obtain ⟨hh, he⟩ := Prod.mk.inj (Except.ok.inj hunpack)
      have hheader : e.header = 1 + (announced first hasStream).fields := by
        rw [← he, Announced.fields]
        dsimp only [announced]
        omega
      have htotal : e.total = first.toNat % 2 ^ 16 := by
        rw [← he, Extent.total]
        dsimp only
        omega
      refine ⟨hasStream, by rw [← hh], ?_, by rw [← hh], by rw [← hh], by rw [← hh],
        hheader, by rw [← he]; rfl, htotal, by omega⟩
      rw [← hh]
      exact ⟨rfl, rfl, rfl, rfl, rfl⟩

/-- What is known of a packet that is accepted: the parts are in it, and each of them
is what the header has. -/
theorem unpack_eq_ok {e : Extent} (hunpack : unpack order packet = .ok (h, e)) :
    FieldsStand order h e.payload packet ∧ h.completed = h ∧ e = h.extent e.payload ∧
      FirstWordOf (order.wordAt packet 0) h e.total := by
  obtain ⟨hasStream, hcode, hread, hstart, hend, hcount, hheader, htrailer, htotal, hinside⟩ :=
    readOff_of_unpack rfl hunpack
  have hcompleted : h.completed = h := by
    refine completed_of_isSome fun hcontext => ?_
    rw [hread.isSome_streamId]
    exact isSome_of_ofClassCode? _ (hcontext ▸ hcode)
  have hsize : e.header = h.size := by
    rw [hheader, size, hcompleted, hread.fieldWords, List.length_map, List.length_range']
  have hextent : e = h.extent e.payload := by
    rw [extent, ← hsize, hread.isSome_trailer, ← htrailer]
  refine ⟨⟨?_, ?_, fun k w hk => ?_, fun w hw => ?_⟩, hcompleted, hextent,
    ⟨?_, hread.isSome_classId, hread.isSome_trailer, hstart, hend, hread.isSome_wholeTime,
      hread.isSome_fractionalTime, hcount, htotal⟩⟩
  · rw [← hextent]
    omega
  · rw [← hextent, htotal, maxPacketWords]
    omega
  · rw [hcompleted] at hk
    exact hread.word_of_fieldWords hk
  · rw [← hextent, htotal]
    exact hread.word_of_trailer hw
  · rw [hread.isSome_streamId]
    exact hcode

/-! ## Canonical first words -/

/-- `w'` is `w` with the codes that packing writes: 4 for a context packet, 3 and 1
for the two parts of a time that is present. -/
structure Canonical (w w' : UInt32) : Prop where
  packetClass : w'.toNat / 2 ^ 28 = if w.toNat / 2 ^ 28 = 5 then 4 else w.toNat / 2 ^ 28
  marks : w'.toNat / 2 ^ 24 % 16 = w.toNat / 2 ^ 24 % 16
  wholeTime : w'.toNat / 2 ^ 22 % 4 = if w.toNat / 2 ^ 22 % 4 = 0 then 0 else 3
  fractionalTime : w'.toNat / 2 ^ 20 % 4 = if w.toNat / 2 ^ 20 % 4 = 0 then 0 else 1
  rest : w'.toNat % 2 ^ 20 = w.toNat % 2 ^ 20

theorem classCode_of_ofClassCode? {code : Nat}
    (hcode : ofClassCode? code = some (h.packetClass, h.streamId.isSome)) :
    h.classCode = if code = 5 then 4 else code := by
  unfold ofClassCode? at hcode
  split at hcode
  all_goals
    first
    | cases hcode
    | obtain ⟨hclass, hid⟩ := Prod.mk.inj (Option.some.inj hcode)
      simp [classCode, ← hclass, ← hid]

theorem toNat_flag (w : UInt32) (bit : Nat) : (flag w bit).toNat = w.toNat / 2 ^ bit % 2 := by
  rcases Nat.mod_two_eq_zero_or_one (w.toNat / 2 ^ bit) with hbit | hbit <;> simp [flag, hbit]

theorem toNat_bne_zero (n : Nat) : (n != 0).toNat = if n = 0 then 0 else 1 := by
  cases n <;> rfl

/-- Four bits of a word, one at a time. -/
theorem nibble_eq (n : Nat) :
    n / 2 ^ 24 % 16 =
      8 * (n / 2 ^ 27 % 2) + 4 * (n / 2 ^ 26 % 2) + 2 * (n / 2 ^ 25 % 2) + n / 2 ^ 24 % 2 := by
  omega

/-- The first word that is packed for a header is the canonical form of the one that
the header was read from. -/
theorem FirstWordOf.canonical {w : UInt32} {total : Nat} (hw : FirstWordOf w h total) :
    Canonical w (h.firstWord total) := by
  have hsmall : total ≤ maxPacketWords := by
    rw [hw.size, maxPacketWords]
    omega
  have hcode := classCode_of_ofClassCode? hw.code
  have hcount : h.count.toNat % 16 = w.toNat / 2 ^ 16 % 16 := by
    rw [hw.count, UInt8.toNat_ofNat']
    omega
  have hsize := hw.size
  have hword := toNat_firstWord h hsmall
  rw [hcount, hw.classId, hw.trailer, hw.startOfBurst, hw.endOfBurst, hw.wholeTime,
    hw.fractionalTime] at hword
  simp only [toNat_flag, toNat_bne_zero] at hword
  have hwhole : (if w.toNat / 2 ^ 22 % 4 = 0 then 0 else 1) ≤ 1 := by split <;> omega
  have hfraction : (if w.toNat / 2 ^ 20 % 4 = 0 then 0 else 1) ≤ 1 := by split <;> omega
  have hthree : (if w.toNat / 2 ^ 22 % 4 = 0 then 0 else 3) =
      3 * (if w.toNat / 2 ^ 22 % 4 = 0 then 0 else 1) := by split <;> rfl
  refine ⟨?_, ?_, ?_, ?_, ?_⟩
  · rw [← hcode]
    omega
  · have hmarks : (h.firstWord total).toNat / 2 ^ 24 =
        16 * h.classCode + (8 * (w.toNat / 2 ^ 27 % 2) + 4 * (w.toNat / 2 ^ 26 % 2) +
          2 * (w.toNat / 2 ^ 25 % 2) + w.toNat / 2 ^ 24 % 2) := by
      omega
    rw [nibble_eq w.toNat, hmarks, Nat.mul_add_mod]
    omega
  · rw [hthree]
    omega
  · omega
  · omega

/-- Only the low four bits of the count travel, and there are no others in a count
that was read. -/
theorem FirstWordOf.count_mod {w : UInt32} {total : Nat} (hw : FirstWordOf w h total) :
    UInt8.ofNat (h.count.toNat % 16) = h.count := by
  apply UInt8.toNat_inj.mp
  rw [hw.count, UInt8.toNat_ofNat', UInt8.toNat_ofNat']
  omega

end Header

namespace PacketRecord

/-! ## Records that were read -/

theorem present_isSome {α : Type} (x : Option α) (default : α) :
    present x.isSome (x.getD default) = x := by
  cases x <;> rfl

variable {h : Header} {e : Extent}

theorem carriesStreamId_ofHeader (hcompleted : h.completed = h) :
    (ofHeader h e).carriesStreamId = h.streamId.isSome := by
  cases hclass : h.packetClass with
  | data => simp [carriesStreamId, ofHeader, hclass]
  | extension => simp [carriesStreamId, ofHeader, hclass]
  | context =>
    have hid : h.streamId.isSome = true := by
      rw [← hcompleted, Header.completed, hclass]
      rfl
    simp [carriesStreamId, ofHeader, hclass, hid]

/-- Nothing that travels is lost in the record of a header that was read. -/
theorem header_ofHeader (hcompleted : h.completed = h) : (ofHeader h e).header = h := by
  rw [header, carriesStreamId_ofHeader hcompleted]
  simp only [ofHeader, present_isSome]

/-- The record of a packet that was read is left as it is when it is packed again. -/
theorem sized_ofHeader (hcompleted : h.completed = h) (hextent : e = h.extent e.payload) :
    (ofHeader h e).sized = ofHeader h e := by
  have hheader := header_ofHeader (e := e) hcompleted
  have hsize := size_header (ofHeader h e)
  have htotal := total_header (ofHeader h e)
  rw [hheader] at hsize htotal
  have he : h.size = e.header := by rw [hextent]; rfl
  have het : (h.extent (ofHeader h e).payloadWords).total = e.total := by
    conv => rhs; rw [hextent]
    rfl
  rw [sized, flagged, carriesStreamId_ofHeader hcompleted, ← hsize, ← htotal, he, het]
  rfl

/-- Packing a packet that was unpacked into its own bytes. It succeeds, it changes
nothing behind the first word and brings that word into canonical form, what is
unpacked of the result is the same record, and packing that once more changes
nothing. -/
theorem pack_of_unpack {order : ByteOrder} {packet : Bytes} {r : PacketRecord}
    (hunpack : unpack order packet = .ok r) :
    ∃ canonical, r.pack order packet = some (r, canonical, .ok ()) ∧
      canonical.length = packet.length ∧ canonical.drop 4 = packet.drop 4 ∧
      Header.Canonical (order.wordAt packet 0) (order.wordAt canonical 0) ∧
      unpack order canonical = .ok r ∧
      r.pack order canonical = some (r, canonical, .ok ()) := by
  unfold unpack at hunpack
  cases hread : Header.unpack order packet with
  | error e =>
    rw [hread] at hunpack
    cases hunpack
  | ok parts =>
    obtain ⟨h, e⟩ := parts
    rw [hread] at hunpack
    obtain rfl : ofHeader h e = r := Except.ok.inj hunpack
    obtain ⟨hstand, hcompleted, hextent, hfirst⟩ := Header.unpack_eq_ok hread
    have hheader : (ofHeader h e).header = h := header_ofHeader hcompleted
    have hsized := sized_ofHeader hcompleted hextent
    have hpack := Header.pack_packed order hstand.small hstand.fits
    obtain ⟨hwritten, hlength⟩ := Header.written_of_pack hpack
    have hagain := Header.pack_packed order hwritten.small hwritten.fits
    rw [hwritten.packed_eq] at hagain
    have hword : order.wordAt (Header.packed order h e.payload packet) 0 = h.firstWord e.total := by
      have hw := hwritten.words 0 _ rfl
      rwa [hcompleted, ← hextent] at hw
    refine ⟨Header.packed order h e.payload packet, ?_, hlength, ?_, ?_, ?_, ?_⟩
    · have hpacked := pack_of_ok (r := ofHeader h e) (by rw [hheader]; exact hpack)
      rwa [hsized] at hpacked
    · rw [hstand.packed_eq]
      exact drop_splice (Nat.zero_le _) (by simp)
    · rw [hword]
      exact hfirst.canonical
    · rw [unpack_of_header (Header.unpack_of_written hwritten), hcompleted, hfirst.count_mod,
        ← hextent]
    · have hpacked := pack_of_ok (r := ofHeader h e) (by rw [hheader]; exact hagain)
      rwa [hsized] at hpacked

/-- A context packet in another spelling: class code 5 and timestamp codes 1 and 2,
with one byte behind its trailer. -/
def respelled : Bytes :=
  [0x55, 0x69, 0, 6, 0, 0, 0, 7, 0, 0, 0, 1, 0, 0, 0, 2, 0, 0, 0, 3, 0, 0, 0xca, 0xfe, 0xff]

theorem pack_of_unpack_respelled :
    ∃ r canonical, unpack .big respelled = .ok r ∧
      r.pack .big respelled = some (r, canonical, .ok ()) ∧
      (ByteOrder.big.wordAt canonical 0).toNat = 0x45d90006 ∧
      canonical.drop 4 = respelled.drop 4 := by
  have hunpack : unpack .big respelled =
      .ok { packetClass := .context, headerWords := 5, packetWords := 6, count := 9,
            endOfBurst := true, hasStreamId := true, streamId := 7, hasWholeTime := true,
            wholeTime := 1, hasFractionalTime := true, fractionalTime := 0x200000003,
            hasTrailer := true, trailer := 0xcafe } := rfl
  obtain ⟨canonical, hpack, -, hrest, hword, -, -⟩ := pack_of_unpack hunpack
  refine ⟨_, canonical, hunpack, hpack, ?_, hrest⟩
  have hread : (ByteOrder.big.wordAt respelled 0).toNat = 0x55690006 := by decide
  have hclass : (ByteOrder.big.wordAt canonical 0).toNat / 2 ^ 28 = 4 := by
    rw [hword.packetClass, hread]
    rfl
  have hmarks : (ByteOrder.big.wordAt canonical 0).toNat / 2 ^ 24 % 16 = 5 :=
    hword.marks.trans (congrArg (fun n => n / 2 ^ 24 % 16) hread)
  have hwhole : (ByteOrder.big.wordAt canonical 0).toNat / 2 ^ 22 % 4 = 3 := by
    rw [hword.wholeTime, hread]
    rfl
  have hfraction : (ByteOrder.big.wordAt canonical 0).toNat / 2 ^ 20 % 4 = 1 := by
    rw [hword.fractionalTime, hread]
    rfl
  have hlow := hword.rest
  rw [hread] at hlow
  omega

end PacketRecord
end SampleStream
