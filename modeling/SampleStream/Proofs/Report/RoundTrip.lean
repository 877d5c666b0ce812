import SampleStream.Proofs.Packet.Acceptance
import SampleStream.Proofs.Time.Range
import SampleStream.Report.Basic

/-!
# Reading reports back

The frame of a report is a packet of a few words, so that it is made once the tick of the
report is known (`toFrame_eq`), and it is read back with the header and the words that it was
made of, whatever comes behind it. What is lost on the way are the upper bits of the events
and what the tick leaves out of the time. The tick that was written is a count that is not
negative, and so it has a time at every rate. Main statement: `ofFrame_toFrame`.
-/

namespace SampleStream

/-- A tick count is a signed count. -/
theorem Timestamp.toTicks_lt {t : Time} {rate : Float} {tick : Int}
    (h : t.toTicks rate = some tick) : tick < signedLimit := by
  simp only [toTicks, bind, Option.bind_eq_some_iff] at h
  obtain ⟨whole, -, hfit⟩ := h
  change fitSigned _ = some tick at hfit
  rw [fitSigned] at hfit
  split at hfit
  · rename_i hinside
    cases hfit
    exact hinside.2
  · cases hfit

namespace Report

variable {r : Report} {rate : Float} {tick : Int}

/-! ## The tick of a report -/

/-- The tick that a report is stamped with: that of its time, or tick zero when it has none. -/
def stamp (r : Report) (rate : Float) : Checked Int :=
  if r.timed then r.time.toTicks rate else some 0

theorem stamp_lt (h : r.stamp rate = some tick) : tick < signedLimit := by
  rw [stamp] at h
  split at h
  · exact Timestamp.toTicks_lt h
  · cases h
    decide

/-- The field of a tick. A tick before zero is written as tick zero. -/
def tickField (tick : Int) : UInt64 := UInt64.ofNat tick.toNat

theorem toInt_tickField (hlimit : tick < signedLimit) :
    (tickField tick).toInt64.toInt = max 0 tick := by
  have hsigned : signedLimit = 2 ^ 63 := rfl
  have hfield : (tickField tick).toNat = tick.toNat := by
    rw [tickField, UInt64.toNat_ofNat']
    exact Nat.mod_eq_of_lt (by omega)
  have hupper : 2 * (tickField tick).toBitVec.toNat < 2 ^ 64 := by
    rw [UInt64.toNat_toBitVec, hfield]
    omega
  have hread : (tickField tick).toInt64.toInt = (tickField tick).toBitVec.toInt := rfl
  rw [hread, BitVec.toInt_eq_toNat_of_lt hupper, UInt64.toNat_toBitVec, hfield, Int.toNat_eq_max,
    max_comm]

/-- The tick field of a report, which one without a time does not have. -/
def field (r : Report) (tick : Int) : Option UInt64 :=
  if r.timed then some (tickField tick) else none

theorem isSome_field (r : Report) (tick : Int) : (r.field tick).isSome = r.timed := by
  rw [field]
  cases r.timed <;> rfl

theorem timeOfField_field (h : r.stamp rate = some tick) :
    timeOfField (r.field tick) rate =
      if rate == 0 then some .zero else Timestamp.ofTicks (max 0 tick) rate := by
  have hread : ((r.field tick).getD 0).toInt64.toInt = max 0 tick := by
    have hlimit := stamp_lt h
    rw [stamp] at h
    rw [field]
    cases htimed : r.timed with
    | false =>
      rw [htimed, if_neg Bool.false_ne_true] at h
      cases h
      rfl
    | true => exact toInt_tickField hlimit
  rw [timeOfField, hread]

/-- Whatever tick was written, there is a time to read it as. -/
theorem exists_time (h : r.stamp rate = some tick) :
    ∃ time, timeOfField (r.field tick) rate = some time := by
  rw [timeOfField_field h]
  split
  · exact ⟨.zero, rfl⟩
  · have hlimit : max 0 tick < signedLimit := max_lt (by decide) (stamp_lt h)
    exact Option.isSome_iff_exists.mp (Timestamp.ofTicks_isSome (le_max_left ..) hlimit rate)

/-! ## The words of a report -/

theorem length_words (r : Report) : r.words.length = 5 := by
  rw [words, List.length_cons, Vector.length_toList]

/-- The words of a report are read where they were written. -/
theorem wordAt_words (order : ByteOrder) (r : Report) {k : Nat} (hk : k < r.words.length) :
    (if 4 * (k + 1) ≤ (order.wordsBytes r.words).length
      then order.wordAt (order.wordsBytes r.words) k else 0) = r.words[k] := by
  have hinside : 4 * (k + 1) ≤ (order.wordsBytes r.words).length := by
    rw [ByteOrder.length_wordsBytes]
    omega
  rw [if_pos hinside, ← ByteOrder.wordAt_wordsBytes order r.words [] k hk, List.append_nil]

theorem and_low_byte (bits : UInt32) : bits &&& 0xff = bits % 256 := by
  apply UInt32.toNat_inj.mp
  rw [UInt32.toNat_and, UInt32.toNat_mod]
  exact Nat.and_two_pow_sub_one_eq_mod bits.toNat 8

/-- What a report is read back as: it is on the channel that it came on, at the time that is
left of its own, and only the low byte of its events is left. -/
def received (r : Report) (channel : Nat) (time : Time) : Report :=
  { r with channel, time, event := ⟨r.event.bits % 256⟩ }

theorem ofPacket_words (order : ByteOrder) {h : Header} {time : Time}
    (htimed : h.fractionalTime.isSome = r.timed)
    (htime : timeOfField h.fractionalTime rate = some time) (channel : Nat) :
    ofPacket order h (order.wordsBytes r.words) rate channel =
      some (r.received channel time) := by
  have hlength := length_words r
  have hevent := wordAt_words order r (k := 0) (by omega)
  have hpayload : (Vector.ofFn fun k : Fin 4 =>
      if 4 * (k.val + 1 + 1) ≤ (order.wordsBytes r.words).length
        then order.wordAt (order.wordsBytes r.words) (k.val + 1) else 0) = r.payload := by
    apply Vector.ext
    intro k hk
    rw [Vector.getElem_ofFn, wordAt_words order r (by omega)]
    exact (List.getElem_cons_succ ..).trans (Vector.getElem_toList ..)
  simp only [ofPacket, htime, htimed, hevent, hpayload, bind, Option.bind_some, pure, received,
    and_low_byte]
  rfl

/-! ## The frame of a report -/

/-- The header of a report about stream `sid` that is stamped with `tick`. -/
def header (r : Report) (tick : Int) (sid : UInt32) : Header :=
  { Header.forContext sid with fractionalTime := r.field tick }

theorem total_extent_header (r : Report) (tick : Int) (sid : UInt32) (n : Nat) :
    ((r.header tick sid).extent n).total = 2 + 2 * r.timed.toNat + n := by
  rw [header, field]
  cases r.timed <;> rfl

theorem toFrame_eq (h : r.stamp rate = some tick) (order : ByteOrder) (sid : UInt32) :
    r.toFrame order rate sid = (r.header tick sid).frame order r.words.length
      fun _ => some (order.wordsBytes r.words) := by
  rw [stamp] at h
  rw [header, field]
  cases htimed : r.timed with
  | false =>
    rw [toFrame, htimed]
    rfl
  | true =>
    rw [htimed, if_pos rfl] at h
    simp only [toFrame, htimed, h]
    rfl

variable {order : ByteOrder} {frame payload : Bytes} {h : Header} {extent : Extent}

/-- The report in a context packet is the one in its payload. -/
theorem ofFrame_of_unpack (hunpack : Header.unpack order frame = .ok (h, extent))
    (hclass : h.packetClass = .context) (hholds : extent.payload ≠ 0)
    (hpayload : extent.payloadOf frame = some payload) (rate : Float) (channel : Nat) :
    ofFrame order frame rate channel = some <$> ofPacket order h payload rate channel := by
  rw [ofFrame, hunpack]
  simp only [if_pos (And.intro hclass hholds), hpayload, bind, Option.bind_some]
  cases ofPacket order h payload rate channel <;> rfl

/-- What comes behind a packet is of no account to the report in it. -/
theorem ofFrame_append (hunpack : Header.unpack order frame = .ok (h, extent)) (behind : Bytes)
    (rate : Float) (channel : Nat) :
    ofFrame order (frame ++ behind) rate channel = ofFrame order frame rate channel := by
  obtain ⟨hsame, hpayload⟩ := Header.unpack_append hunpack behind
  simp only [ofFrame, hsame, hunpack, hpayload]

/-- A report can always be framed when its time has a tick, and its frame is read back, with
whatever bytes behind it and whatever the rate: as the report on the channel that it came
on, with the low byte of its events, and at the time of its tick. A tick before zero counts
as zero, and so does the tick of a report without a time; without a rate every time is
zero. -/
theorem ofFrame_toFrame (order : ByteOrder) (r : Report) (rate : Float) (sid : UInt32)
    (hticks : r.timed = true → (r.time.toTicks rate).isSome) :
    ∃ tick frame time, (if r.timed then r.time.toTicks rate else some 0) = some tick ∧
      r.toFrame order rate sid = some (.ok frame) ∧
      (if rate == 0 then some .zero else Timestamp.ofTicks (max 0 tick) rate) = some time ∧
      ∀ (channel : Nat) (behind : Bytes), ofFrame order (frame ++ behind) rate channel =
        some (some { r with channel, time, event := ⟨r.event.bits % 256⟩ }) := by
  obtain ⟨tick, hstamp⟩ : ∃ tick, r.stamp rate = some tick := by
    rw [stamp]
    split
    · rename_i htimed
      exact Option.isSome_iff_exists.mp (hticks htimed)
    · exact ⟨0, rfl⟩
  obtain ⟨time, htime⟩ := exists_time hstamp
  have hsmall : ((r.header tick sid).extent r.words.length).total ≤ maxPacketWords := by
    have htwo := r.timed.toNat_le
    rw [total_extent_header, length_words, maxPacketWords]
    omega
  have hmade := toFrame_eq hstamp order sid
  obtain ⟨frame, hframe⟩ : ∃ frame, r.toFrame order rate sid = some (.ok frame) := by
    rw [hmade]
    exact Header.frame_of_small order hsmall rfl
  refine ⟨tick, frame, time, hstamp, hframe, (timeOfField_field hstamp).symm.trans htime,
    fun channel behind => ?_⟩
  have hfill (filled : Bytes) (h : some (order.wordsBytes r.words) = some filled) :
      filled.length = 4 * r.words.length := by
    cases h
    exact order.length_wordsBytes r.words
  obtain ⟨-, -, payload, hpayload, hunpack, hslice⟩ :=
    Header.unpack_frame hfill (hmade.symm.trans hframe)
  cases hpayload
  have hholds : ((r.header tick sid).extent r.words.length).payload ≠ 0 := by
    exact (length_words r).trans_ne (by decide)
  rw [ofFrame_append hunpack, ofFrame_of_unpack hunpack rfl hholds hslice, ofPacket_words]
  · rfl
  · exact isSome_field r tick
  · exact htime

/-- A late packet that was reported two seconds before zero. -/
def earlyReport : Report :=
  { channel := 0, timed := true, time := ⟨-2, 0⟩, event := ⟨0x108⟩, payload := #v[1, 2, 3, 4] }

/-- A time before zero is read back as zero. -/
theorem ofFrame_toFrame_early :
    ∃ frame, earlyReport.toFrame .little 4 0x20 = some (.ok frame) ∧
      ∀ (channel : Nat) (behind : Bytes), ofFrame .little (frame ++ behind) 4 channel =
        some (some { earlyReport with channel, time := .zero, event := ⟨8⟩ }) := by
  have hticks : earlyReport.time.toTicks 4 = some (-8) := by decide +kernel
  have hzero : (Timestamp.ofTicks (max 0 (-8)) 4 : Checked Time) = some .zero := by
    decide +kernel
  have hrate : ¬ ((4 : Float) == 0) = true := by decide +kernel
  obtain ⟨tick, frame, time, htick, hframe, htime, hread⟩ :=
    ofFrame_toFrame .little earlyReport 4 0x20 fun _ => by rw [hticks]; rfl
  cases (if_pos rfl).symm.trans htick |>.symm.trans hticks
  cases (if_neg hrate).symm.trans htime |>.symm.trans hzero
  exact ⟨frame, hframe, hread⟩

end Report
end SampleStream
