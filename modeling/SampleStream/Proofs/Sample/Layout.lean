import Mathlib.Data.Set.Function
import SampleStream.Proofs.Sample.Overlay
import SampleStream.Sample.Shifts

/-!
# The layout of a block

The three words of a block are one number of 96 bits, and its eight components are the
pieces of twelve bits of that number, the most significant one first. Unpacking and packing
are inverse to each other between all words and the components that twelve bits can hold
(`Codec`). It makes no difference whether pieces of the words are cut out and joined, or
shifts and masks move them (`unpackByShifts_eq`, `packByShifts_eq`). Main statement:
`codec_layout`.
-/

namespace SampleStream.Sample.Block

/-! ## Unpacking by shifts and masks -/

theorem toBitVec_sideBySide (high low : UInt32) :
    (sideBySide high low).toBitVec = high.toBitVec ++ low.toBitVec := by
  have hroom : high.toNat <<< 32 < 2 ^ 64 := by
    have hhigh := high.toNat_lt
    rw [Nat.shiftLeft_eq]
    omega
  apply BitVec.eq_of_toNat_eq
  rw [BitVec.toNat_append, sideBySide, UInt64.toNat_toBitVec, UInt64.toNat_or,
    UInt64.toNat_shiftLeft, UInt32.toNat_toUInt64, UInt32.toNat_toUInt64]
  exact congrArg (· ||| low.toNat) (Nat.mod_eq_of_lt hroom)

/-- A piece that crosses the boundary between two words. -/
theorem extractLsb'_across {v w : Nat} (x : BitVec v) (y : BitVec w) (high : Nat) {low : Nat}
    (hlow : low ≤ w) :
    (x ++ y).extractLsb' (w - low) (high + low) =
      x.extractLsb' 0 high ++ y.extractLsb' (w - low) low := by
  have hboundary : w = w - low + low := by omega
  rw [← BitVec.extractLsb'_append_extractLsb'_eq_extractLsb' hboundary,
    BitVec.extractLsb'_append_eq_of_le (Nat.le_refl w), Nat.sub_self,
    BitVec.extractLsb'_append_eq_of_add_le (by omega)]

/-- The mask of a lane leaves out the four lowest bits. -/
theorem testBit_laneMask {k : Nat} (hk : k < 16) : Nat.testBit 0xfff0 k = decide (4 ≤ k) := by
  revert hk
  revert k
  decide

/-- To shift a component to the upper bits of a lane and mask the others is to cut it out. -/
theorem shifted_masked {w : Nat} (x : BitVec w) (n : Nat) :
    (x >>> n).setWidth 16 &&& 0xfff0#16 = x.extractLsb' (n + 4) 12 ++ 0#4 := by
  apply BitVec.eq_of_getLsbD_eq
  intro k hk
  rw [BitVec.getLsbD_and, BitVec.getLsbD_setWidth, BitVec.getLsbD_ushiftRight,
    BitVec.getLsbD_ofNat, testBit_laneMask hk, BitVec.getLsbD_append, BitVec.getLsbD_extractLsb']
  by_cases hlow : k < 4
  · simp [hlow]
  · have hplace : n + 4 + (k - 4) = n + k := by omega
    have hfield : k - 4 < 12 := by omega
    simp [hlow, hk, hfield, hplace, Nat.not_lt.mp hlow]

theorem maskedLane_of_shift {shifted word : UInt32} {n : Nat}
    (h : shifted.toBitVec = word.toBitVec >>> n) :
    maskedLane shifted = lane (word.toBitVec.extractLsb' (n + 4) 12) := by
  apply Int16.toBitVec_inj.mp
  have hmasked : (maskedLane shifted).toBitVec = shifted.toBitVec.setWidth 16 &&& 0xfff0#16 := by
    simp [maskedLane]
  rw [hmasked, h, shifted_masked, lane, Int16.toBitVec_ofBitVec]

theorem maskedLaneOfTwo_of_shift {shifted : UInt64} {high low : UInt32} {n : Nat}
    (h : shifted.toBitVec = (sideBySide high low).toBitVec >>> n) :
    maskedLaneOfTwo shifted = lane ((high.toBitVec ++ low.toBitVec).extractLsb' (n + 4) 12) := by
  apply Int16.toBitVec_inj.mp
  have hmasked : (maskedLaneOfTwo shifted).toBitVec =
      shifted.toBitVec.setWidth 16 &&& 0xfff0#16 := by
    simp [maskedLaneOfTwo]
  rw [hmasked, h, shifted_masked, toBitVec_sideBySide, lane, Int16.toBitVec_ofBitVec]

/-- The last component stands at the end of its word and is shifted the other way. -/
theorem maskedLane_shiftLeft (word : UInt32) :
    maskedLane (word <<< 4) = lane (word.toBitVec.extractLsb' 0 12) := by
  apply Int16.toBitVec_inj.mp
  have hmasked : (maskedLane (word <<< 4)).toBitVec =
      (word.toBitVec <<< 4).setWidth 16 &&& 0xfff0#16 := by
    simp [maskedLane]
  rw [hmasked, lane, Int16.toBitVec_ofBitVec]
  apply BitVec.eq_of_getLsbD_eq
  intro k hk
  rw [BitVec.getLsbD_and, BitVec.getLsbD_setWidth, BitVec.getLsbD_shiftLeft,
    BitVec.getLsbD_ofNat, testBit_laneMask hk, BitVec.getLsbD_append, BitVec.getLsbD_extractLsb']
  by_cases hlow : k < 4
  · simp [hlow]
  · have hfield : k - 4 < 12 := by omega
    have hword : k < 32 := by omega
    simp [hlow, hk, hfield, hword, Nat.not_lt.mp hlow]

theorem lanesByShifts_eq (w0 w1 w2 : UInt32) :
    lanesByShifts w0 w1 w2 = unpack #v[w0, w1, w2] := by
  have i0 : maskedLane (w0 >>> 16) = lane (w0.toBitVec.extractLsb' 20 12) :=
    maskedLane_of_shift (by simp)
  have q0 : maskedLane (w0 >>> 4) = lane (w0.toBitVec.extractLsb' 8 12) :=
    maskedLane_of_shift (by simp)
  have i1 : maskedLaneOfTwo (sideBySide w0 w1 >>> 24) =
      lane ((w0.toBitVec ++ w1.toBitVec).extractLsb' 28 12) :=
    maskedLaneOfTwo_of_shift (by simp)
  have q1 : maskedLane (w1 >>> 12) = lane (w1.toBitVec.extractLsb' 16 12) :=
    maskedLane_of_shift (by simp)
  have i2 : maskedLane w1 = lane (w1.toBitVec.extractLsb' 4 12) :=
    maskedLane_of_shift (by simp)
  have q2 : maskedLaneOfTwo (sideBySide w1 w2 >>> 20) =
      lane ((w1.toBitVec ++ w2.toBitVec).extractLsb' 24 12) :=
    maskedLaneOfTwo_of_shift (by simp)
  have i3 : maskedLane (w2 >>> 8) = lane (w2.toBitVec.extractLsb' 12 12) :=
    maskedLane_of_shift (by simp)
  have hacross : (w0.toBitVec ++ w1.toBitVec).extractLsb' 28 12 =
      w0.toBitVec.extractLsb' 0 8 ++ w1.toBitVec.extractLsb' 28 4 :=
    extractLsb'_across _ _ _ (by decide : 4 ≤ 32)
  have hacross' : (w1.toBitVec ++ w2.toBitVec).extractLsb' 24 12 =
      w1.toBitVec.extractLsb' 0 4 ++ w2.toBitVec.extractLsb' 24 8 :=
    extractLsb'_across _ _ _ (by decide : 8 ≤ 32)
  simp only [lanesByShifts, i0, q0, i1, q1, i2, q2, i3, maskedLane_shiftLeft, unpack,
    Vector.getElem_mk, List.getElem_toArray, List.getElem_cons_zero, List.getElem_cons_succ,
    hacross, hacross']

theorem unpackByShifts_eq (words : Words) : unpackByShifts words = unpack words :=
  lanesByShifts_eq _ _ _

/-! ## Packing by shifts and masks -/

/-- Pieces side by side are pieces shifted to their places, with their bits joined. -/
theorem setWidth_append_eq_or {v w : Nat} (u : Nat) (x : BitVec v) (y : BitVec w) :
    (x ++ y).setWidth u = x.setWidth u <<< w ||| y.setWidth u := by
  apply BitVec.eq_of_getLsbD_eq
  intro k hk
  rw [BitVec.getLsbD_or, BitVec.getLsbD_shiftLeft, BitVec.getLsbD_setWidth,
    BitVec.getLsbD_setWidth, BitVec.getLsbD_setWidth, BitVec.getLsbD_append]
  by_cases hlow : k < w
  · simp [hlow, hk]
  · have hhigh : k - w < u := by omega
    simp [hlow, hk, hhigh, BitVec.getLsbD_of_ge y k (Nat.not_lt.mp hlow)]

/-- The upper bits of a component are left when the others are shifted out. -/
theorem setWidth_extractLsb'_upper {v : Nat} (u : Nat) (x : BitVec v) {n : Nat} (h : v ≤ u) :
    (x.extractLsb' n (v - n)).setWidth u = x.setWidth u >>> n := by
  apply BitVec.eq_of_getLsbD_eq
  intro k hk
  rw [BitVec.getLsbD_setWidth, BitVec.getLsbD_extractLsb', BitVec.getLsbD_ushiftRight,
    BitVec.getLsbD_setWidth]
  by_cases hinside : n + k < v
  · have hpiece : k < v - n := by omega
    have hroom : n + k < u := by omega
    simp [hk, hpiece, hroom]
  · simp [BitVec.getLsbD_of_ge x (n + k) (Nat.not_lt.mp hinside)]

/-- The lower bits of a component are left when the others are masked away. -/
theorem setWidth_extractLsb'_lower {v : Nat} (u : Nat) (x : BitVec v) (n : Nat) :
    (x.extractLsb' 0 n).setWidth u = x.setWidth u &&& BitVec.ofNat u (2 ^ n - 1) := by
  apply BitVec.eq_of_getLsbD_eq
  intro k hk
  rw [BitVec.getLsbD_setWidth, BitVec.getLsbD_extractLsb', BitVec.getLsbD_and,
    BitVec.getLsbD_setWidth, BitVec.getLsbD_ofNat, Nat.testBit_two_pow_sub_one, Nat.zero_add]
  simp [hk, Bool.and_comm]

theorem toBitVec_maskedField (x : Int16) : (maskedField x).toBitVec = (field x).setWidth 32 := by
  have hlow : (x.toBitVec.extractLsb' 0 12).setWidth 32 = x.toBitVec.setWidth 32 &&& 0xfff#32 :=
    setWidth_extractLsb'_lower 32 x.toBitVec 12
  rw [field, BitVec.setWidth_eq_extractLsb' (by decide : 12 ≤ 16), hlow, maskedField]
  simp

theorem wordsByShifts_eq (s0 s1 s2 s3 : IQ Int16) :
    wordsByShifts s0 s1 s2 s3 = pack #v[s0, s1, s2, s3] := by
  have hupper (x : BitVec 12) : (x.extractLsb' 4 8).setWidth 32 = x.setWidth 32 >>> 4 :=
    setWidth_extractLsb'_upper 32 x (n := 4) (by decide)
  have hupper' (x : BitVec 12) : (x.extractLsb' 8 4).setWidth 32 = x.setWidth 32 >>> 8 :=
    setWidth_extractLsb'_upper 32 x (n := 8) (by decide)
  have hlower (x : BitVec 12) : (x.extractLsb' 0 4).setWidth 32 = x.setWidth 32 &&& 0xf#32 :=
    setWidth_extractLsb'_lower 32 x 4
  have hlower' (x : BitVec 12) : (x.extractLsb' 0 8).setWidth 32 = x.setWidth 32 &&& 0xff#32 :=
    setWidth_extractLsb'_lower 32 x 8
  apply Vector.ext
  intro j hj
  apply UInt32.toBitVec_inj.mp
  rw [← BitVec.setWidth_eq (pack #v[s0, s1, s2, s3])[j].toBitVec]
  rcases (by omega : j = 0 ∨ j = 1 ∨ j = 2) with rfl | rfl | rfl
  all_goals
    simp only [wordsByShifts, pack, Vector.getElem_mk, List.getElem_toArray,
      List.getElem_cons_zero, List.getElem_cons_succ, UInt32.toBitVec_or, UInt32.toBitVec_and,
      UInt32.toBitVec_shiftLeft, UInt32.toBitVec_shiftRight, toBitVec_maskedField,
      setWidth_append_eq_or, hupper, hupper', hlower, hlower']
    -- a shift of joined bits, and a shift after a shift
    simp [BitVec.shiftLeft_or_distrib, ← BitVec.shiftLeft_add]

theorem packByShifts_eq (samples : Lanes) : packByShifts samples = pack samples :=
  wordsByShifts_eq _ _ _ _

/-! ## Components in a row -/

/-- The words of a block as one number. -/
def number (w0 w1 w2 : UInt32) : BitVec 96 := w0.toBitVec ++ w1.toBitVec ++ w2.toBitVec

/-- The components of four samples in a row, sample by sample, the in-phase one first. -/
def component (samples : Lanes) (c : Fin 8) : Int16 :=
  if c.val % 2 = 0 then samples[c.val / 2].i else samples[c.val / 2].q

theorem component_map (f : Int16 → Int16) (samples : Lanes) (c : Fin 8) :
    component (samples.map (IQ.map f)) c = f (component samples c) := by
  simp only [component, Vector.getElem_map, IQ.map]
  split <;> rfl

/-- Samples are the same if their components are. -/
theorem eq_of_component {a b : Lanes} (h : ∀ c, component a c = component b c) : a = b := by
  apply Vector.ext
  intro k hk
  have hi := h ⟨2 * k, by omega⟩
  have hq := h ⟨2 * k + 1, by omega⟩
  have hhalf : (2 * k + 1) / 2 = k := by omega
  have hodd : (2 * k + 1) % 2 = 1 := by omega
  simp only [component, Nat.mul_mod_right, hodd, hhalf, Nat.mul_div_cancel_left k Nat.two_pos,
    if_true, Nat.one_ne_zero, if_false] at hi hq
  cases ha : a[k]
  cases hb : b[k]
  rw [ha, hb] at hi hq
  exact congr (congrArg IQ.mk hi) hq

/-- Each lane holds twelve bits of the number, from the most significant ones on. -/
theorem component_unpack (w0 w1 w2 : UInt32) (c : Fin 8) :
    component (unpack #v[w0, w1, w2]) c =
      lane ((number w0 w1 w2).extractLsb' (84 - 12 * c) 12) := by
  have hacross (x y : BitVec 32) :
      (x ++ y).extractLsb' 28 12 = x.extractLsb' 0 8 ++ y.extractLsb' 28 4 :=
    extractLsb'_across x y 8 (by decide : 4 ≤ 32)
  have hacross' {v : Nat} (x : BitVec v) (y : BitVec 32) :
      (x ++ y).extractLsb' 24 12 = x.extractLsb' 0 4 ++ y.extractLsb' 24 8 :=
    extractLsb'_across x y 4 (by decide : 8 ≤ 32)
  have hnumber (start : Nat) : (number w0 w1 w2).extractLsb' start 12 =
      (w0.toBitVec ++ w1.toBitVec ++ w2.toBitVec).extractLsb' start 12 := rfl
  obtain ⟨c, hc⟩ := c
  rcases (by omega : c = 0 ∨ c = 1 ∨ c = 2 ∨ c = 3 ∨ c = 4 ∨ c = 5 ∨ c = 6 ∨ c = 7) with
    rfl | rfl | rfl | rfl | rfl | rfl | rfl | rfl
  all_goals
    simp (disch := decide) only [component, unpack, hnumber, hacross, hacross',
      BitVec.extractLsb'_append_eq_of_le, BitVec.extractLsb'_append_eq_of_add_le,
      Vector.getElem_mk, List.getElem_toArray, List.getElem_cons_zero, List.getElem_cons_succ,
      Nat.reduceMul, Nat.reduceSub, Nat.reduceMod, Nat.reduceDiv, reduceIte, Nat.reduceEqDiff]

/-! ## Lanes and their components -/

theorem signExtend_shiftLeft (x : BitVec 12) : x.signExtend 16 <<< 4 = x ++ 0#4 := by
  apply BitVec.eq_of_getLsbD_eq
  intro k hk
  rw [BitVec.getLsbD_shiftLeft, BitVec.getLsbD_signExtend, BitVec.getLsbD_append]
  by_cases hlow : k < 4
  · simp [hlow]
  · have hfield : k - 4 < 12 := by omega
    have hroom : k - 4 < 16 := by omega
    simp [hlow, hk, hfield, hroom]

/-- A lane without the factor of its place is its component, sign and all. -/
theorem lane_shiftRight (x : BitVec 12) : lane x >>> 4 = Int16.ofBitVec (x.signExtend 16) := by
  have hshift : (lane x >>> (4 : Int16)).toBitVec = (x ++ 0#4).sshiftRight 4 := rfl
  apply Int16.toBitVec_inj.mp
  rw [hshift, Int16.toBitVec_ofBitVec]
  apply BitVec.eq_of_getLsbD_eq
  intro k hk
  have hlane : ¬ 16 ≤ k := by omega
  rw [BitVec.getLsbD_sshiftRight, BitVec.getLsbD_signExtend, BitVec.getLsbD_append,
    BitVec.msb_append]
  by_cases hfield : k < 12
  · have hplace : 4 + k < 16 := by omega
    have hupper : ¬ 4 + k < 4 := by omega
    simp [hk, hlane, hfield, hplace, hupper]
  · have hplace : ¬ 4 + k < 16 := by omega
    simp [hlane, hk, hfield, hplace]

/-- Twelve bits hold a component just if it is between `-2 ^ 11` and `2 ^ 11 - 1`. -/
theorem signExtend_field_eq_self_iff (x : Int16) :
    Int16.ofBitVec ((field x).signExtend 16) = x ↔ -2048 ≤ x.toInt ∧ x.toInt ≤ 2047 := by
  have hlow : (Int16.ofBitVec ((field x).signExtend 16)).toInt = x.toInt.bmod 4096 := by
    rw [Int16.toInt, Int16.toBitVec_ofBitVec, BitVec.toInt_signExtend_of_le (by decide), field,
      BitVec.toInt_setWidth, Int16.toInt, BitVec.toInt_eq_toNat_bmod]
    exact (Int.bmod_bmod_of_dvd (by decide)).symm
  rw [← Int16.toInt_inj, hlow, Int.bmod_def]
  omega

/-! ## The codec -/

/-- The samples whose components twelve bits can hold. -/
def Short (samples : Lanes) : Prop :=
  ∀ c, -2048 ≤ (component samples c).toInt ∧ (component samples c).toInt ≤ 2047

/-- How words and samples belong together in a block. -/
structure Codec (unpack : Words → Lanes) (pack : Lanes → Words) : Prop where
  /-- A lane is the twelve bits from `84 - 12 * c` on, with their sign, times sixteen. -/
  lanes : ∀ w0 w1 w2 c, component (unpack #v[w0, w1, w2]) c =
    Int16.ofBitVec (((number w0 w1 w2).extractLsb' (84 - 12 * c) 12).signExtend 16 <<< 4)
  /-- No word is changed by unpacking and packing. -/
  words_kept : ∀ words, pack (components (unpack words)) = words
  /-- Of each component the twelve low bits survive packing, and their sign is extended. -/
  samples_cut : ∀ samples c, component (components (unpack (pack samples))) c =
    Int16.ofBitVec (((component samples c).toBitVec.setWidth 12).signExtend 16)
  /-- A component survives unchanged just if twelve bits can hold it. -/
  samples_kept : ∀ samples c,
    component (components (unpack (pack samples))) c = component samples c ↔
      -2048 ≤ (component samples c).toInt ∧ (component samples c).toInt ≤ 2047
  /-- All words and all samples of twelve bits a component correspond to each other. -/
  bijective : Set.BijOn (fun words => components (unpack words)) Set.univ {s | Short s}

/-- The codec has the documented layout and loses nothing that twelve bits can hold, by
shifts and masks as by pieces. -/
theorem codec_layout : Codec unpack pack ∧ Codec unpackByShifts packByShifts := by
  have hwords (words : Words) : pack (components (unpack words)) = words := by
    rw [pack_eq_ofFields]
    exact ofFields_fields words
  have hcut (samples : Lanes) (c : Fin 8) : component (components (unpack (pack samples))) c =
      Int16.ofBitVec ((field (component samples c)).signExtend 16) := by
    rw [components, component_map, unpack_pack, component_map]
    exact lane_shiftRight _
  have hkept (samples : Lanes) (c : Fin 8) :
      component (components (unpack (pack samples))) c = component samples c ↔
        -2048 ≤ (component samples c).toInt ∧ (component samples c).toInt ≤ 2047 := by
    rw [hcut]
    exact signExtend_field_eq_self_iff _
  have hcodec : Codec unpack pack := by
    refine ⟨fun w0 w1 w2 c => ?_, hwords, hcut, hkept, ?_⟩
    · rw [component_unpack, signExtend_shiftLeft, lane]
    · have hinverse : Set.InvOn pack (fun words => components (unpack words)) Set.univ
          {s | Short s} :=
        ⟨fun words _ => hwords words, fun samples hshort =>
          eq_of_component fun c => (hkept samples c).mpr (hshort c)⟩
      refine hinverse.bijOn (fun words _ c => ?_) fun _ _ => Set.mem_univ _
      exact (hkept _ c).mp (by rw [hwords])
  have hunpack : unpackByShifts = unpack := funext unpackByShifts_eq
  have hpack : packByShifts = pack := funext packByShifts_eq
  exact ⟨hcodec, by rw [hunpack, hpack]; exact hcodec⟩

end SampleStream.Sample.Block
