import SampleStream.Proofs.Number.Floors
import SampleStream.Time.Timestamp

/-!
# Times of tick counts stay in range

A tick count that is not negative has a time at every rate, be it negative, infinite or no
number at all (`ofTicks_isSome`). The whole seconds are a quotient of counts and so in range.
What the fraction carries over to them is at most one second, in the direction of the rate,
because the ticks that are left over are less than a second of ticks; and where the rate is
one tick a second none are left over, so that nothing is carried past the largest count.
-/

namespace SampleStream.Timestamp

open SampleStream.Real Float.Model Float.Model.UnpackedFloat

/-! ## The rate -/

theorem held_signedLimit : Held signedLimit :=
  ⟨1, 63, by norm_num, by norm_num, by norm_num, by norm_num [signedLimit]⟩

theorem cast_apply (s : Sign) (z : Int) : ((s.apply z : Int) : Rat) = unit s * z := by
  cases s with
  | negative => rw [Sign.apply, unit, neg_one_mul, Int.cast_neg]
  | positive => rw [Sign.apply, unit, one_mul]

/-- The whole part of a rate is no greater than the rate, in its direction. -/
theorem exists_bound_of_rate {rate : Float} {wholeRate : Int}
    (h : Real.truncate (-signedLimit) (signedLimit - 1) rate = wholeRate) (hne : wholeRate ≠ 0) :
    ∃ s b, Held b ∧ 0 < s.apply wholeRate ∧ ((s.apply wholeRate : Int) : Rat) ≤ b ∧
      UpTo (-s) (-b) (number rate) := by
  rw [Real.truncate, value_eq] at h
  cases hrate : number rate with
  | notANumber =>
    rw [hrate] at h
    exact absurd h.symm hne
  | zero s =>
    rw [hrate, valueOf, Binary.Value.toIntWith, truncated_zero] at h
    have hzero : max (-signedLimit) (min (signedLimit - 1)
        (Binary.signed (s == .negative) 0)) = 0 := by cases s <;> decide
    exact absurd (h.symm.trans hzero) hne
  | infinity s =>
    have hwhole : 0 < s.apply wholeRate ∧ s.apply wholeRate ≤ signedLimit := by
      rw [hrate] at h
      subst h
      cases s <;> decide
    exact ⟨s, signedLimit, held_signedLimit, hwhole.1, by exact_mod_cast hwhole.2,
      (neg_neg_sign s).symm⟩
  | finite s m e hm =>
    obtain ⟨hbits, hlow, hhigh⟩ := number_bounds hrate
    have hwhole : 0 < s.apply wholeRate ∧ s.apply wholeRate ≤ Binary.truncated m e := by
      have hlimit : signedLimit = 2 ^ 63 := rfl
      rw [hrate, valueOf, Binary.Value.toIntWith] at h
      cases s with
      | negative =>
        rw [show (Sign.negative == Sign.negative) = true from rfl, Binary.signed, if_pos rfl] at h
        rw [Sign.apply]
        omega
      | positive =>
        rw [show (Sign.positive == Sign.negative) = false from rfl, Binary.signed,
          if_neg Bool.false_ne_true] at h
        rw [Sign.apply]
        omega
    have htruncated : ((Binary.truncated m e : Int) : Rat) ≤ m * 2 ^ e := by
      rw [truncated_eq_floor]
      exact Int.floor_le _
    have hbound : UpTo (-s) (-((m : Rat) * 2 ^ e)) (.finite s m e hm) := by
      rw [UpTo, unit_neg, neg_mul, unit_mul_self, neg_one_mul]
    exact ⟨s, m * 2 ^ e, ⟨m, e, hbits, hlow, hhigh, rfl⟩, hwhole.1,
      le_trans (by exact_mod_cast hwhole.2) htruncated, hbound⟩

/-! ## What is carried over -/

section Carry

variable {s : Sign} {b : Rat} {rate : Float} {wholeRate seconds left : Int}

/-- The seconds that the rest of the rate takes off are not negative. -/
theorem upTo_rest (hb : Held b) (hwhole : ((s.apply wholeRate : Int) : Rat) ≤ b)
    (hsmall : wholeRate.natAbs < 2 ^ 64) (hrate : UpTo (-s) (-b) (number rate))
    (hseconds : 0 ≤ s.apply seconds) (hcount : seconds.natAbs < 2 ^ 64) :
    UpTo .negative 0 (number (Real.ofInt seconds * (rate - Real.ofInt wholeRate))) := by
  have hrest : UpTo (-s) 0 (number (rate - Real.ofInt wholeRate)) := by
    refine upTo_sub hrate ?_ (neg_add_cancel b).le held_zero
    rw [neg_neg_sign]
    exact upTo_ofInt hsmall (by rwa [← cast_apply]) hb
  have hcounted : UpTo (-s) 0 (number (Real.ofInt seconds)) := by
    refine upTo_ofInt hcount ?_ held_zero
    rw [unit_neg, neg_mul, ← cast_apply]
    exact neg_nonpos.mpr (by exact_mod_cast hseconds)
  exact upTo_mul hcounted hrest

/-- What is carried over is at most a second in the direction of the rate, and nothing where
no ticks are left. -/
theorem upTo_quotient (hb : Held b) (hpos : 0 < s.apply wholeRate)
    (hwhole : ((s.apply wholeRate : Int) : Rat) ≤ b) (hsmall : wholeRate.natAbs < 2 ^ 64)
    (hrate : UpTo (-s) (-b) (number rate)) (hseconds : 0 ≤ s.apply seconds)
    (hcount : seconds.natAbs < 2 ^ 64) (hnonneg : 0 ≤ left) (hleft : left < s.apply wholeRate) :
    UpTo s (if left = 0 then 0 else 1) (number ((Real.ofInt left -
      Real.ofInt seconds * (rate - Real.ofInt wholeRate)) / rate)) := by
  have hoff := upTo_rest hb hwhole hsmall hrate hseconds hcount
  have hbpos : 0 < b := lt_of_lt_of_le (by exact_mod_cast hpos) hwhole
  have hbits : left.natAbs < 2 ^ 64 := by
    cases s <;> rw [Sign.apply] at hleft <;> omega
  have hdifference (c : Rat) (hc : Held c) (hle : (left : Rat) ≤ c) : UpTo .positive c
      (number (Real.ofInt left - Real.ofInt seconds * (rate - Real.ofInt wholeRate))) := by
    refine upTo_sub (upTo_ofInt hbits ?_ hc) hoff (add_zero c).le hc
    rwa [unit, one_mul]
  split
  · rename_i hzero
    exact upTo_div_of_nonpositive (hdifference 0 held_zero (by rw [hzero, Int.cast_zero]))
      (ofSign_of_upTo hrate hbpos)
  · have hle : (left : Rat) ≤ b := le_trans (by exact_mod_cast hleft.le) hwhole
    exact upTo_div (hdifference b hb hle) hrate hbpos

end Carry

/-! ## The time -/

theorem fitSigned_eq_some {z : Int} (hlow : -signedLimit ≤ z) (hhigh : z < signedLimit) :
    fitSigned z = some z := if_pos ⟨hlow, hhigh⟩

/-- The whole seconds in a number of seconds, within the range of counts. -/
def wholeSeconds (x : Float) : Int := wholeWithin (-signedLimit) (signedLimit - 1) (number x)

theorem wholeSeconds_mem_range (x : Float) :
    -signedLimit ≤ wholeSeconds x ∧ wholeSeconds x < signedLimit := by
  have hsigned : signedLimit = 2 ^ 63 := rfl
  obtain ⟨hlow, hhigh⟩ : -signedLimit ≤ wholeSeconds x ∧ wholeSeconds x ≤ signedLimit - 1 :=
    wholeWithin_mem_range (by omega) (by omega) (number x)
  exact ⟨hlow, by omega⟩

/-- A number of seconds that a full second is left of is a small one. -/
theorem wholeSeconds_le_of_one_le {x : Float} (h : Real.ofInt 1 ≤ x - Real.floor x) :
    wholeSeconds x ≤ 2 ^ 52 :=
  wholeWithin_le_of_one_le h (by decide)

theorem normalized_isSome {seconds : Int} {x : Float}
    (hlow : -signedLimit ≤ seconds + wholeSeconds x)
    (hhigh : seconds + wholeSeconds x < signedLimit)
    (hone : Real.ofInt 1 ≤ x - Real.floor x → seconds + wholeSeconds x + 1 < signedLimit) :
    (normalized seconds x).isSome := by
  have hcarry : Reckoning.truncate (Reckoning.floor x) = wholeSeconds x :=
    truncate_floor x (-signedLimit) (signedLimit - 1)
  have hfit : Reckoning.fit Float (seconds + wholeSeconds x) = some (seconds + wholeSeconds x) :=
    fitSigned_eq_some hlow hhigh
  simp only [normalized, hcarry, hfit, bind, Option.bind_some]
  split
  · rename_i hatMost
    have hle : Real.ofInt 1 ≤ x - Real.floor x := of_decide_eq_true hatMost
    have hnext : Reckoning.fit Float (seconds + wholeSeconds x + 1) =
        some (seconds + wholeSeconds x + 1) := fitSigned_eq_some (by omega) (hone hle)
    rw [hnext]
    rfl
  · rfl

/-- Every number of seconds is a time, beyond the range of counts the last one. -/
theorem ofSeconds_isSome (x : Float) : (ofSeconds x).isSome := by
  have hsigned : signedLimit = 2 ^ 63 := rfl
  obtain ⟨hlow, hhigh⟩ := wholeSeconds_mem_range x
  refine normalized_isSome (by omega) (by omega) fun h => ?_
  have hsmall := wholeSeconds_le_of_one_le h
  omega

/-! ## The time of a tick count -/

/-- Whole seconds go in the direction of the rate. -/
theorem tdiv_eq_apply {ticks wholeRate : Int} {s : Sign} (hnonneg : 0 ≤ ticks) :
    ticks.tdiv wholeRate = s.apply (ticks / s.apply wholeRate) := by
  cases s with
  | negative =>
    rw [Sign.apply, Sign.apply, ← Int.tdiv_eq_ediv_of_nonneg hnonneg, Int.tdiv_neg, neg_neg]
  | positive => rw [Sign.apply, Sign.apply, Int.tdiv_eq_ediv_of_nonneg hnonneg]

theorem apply_mul (s : Sign) (q z : Int) : s.apply q * z = q * s.apply z := by
  cases s with
  | negative => rw [Sign.apply, Sign.apply, neg_mul, mul_neg]
  | positive => rw [Sign.apply, Sign.apply]

/-- What is left over is less than a second, and where anything is, there is more than a tick
to a second. -/
theorem left_over {ticks perSecond : Int} (hnonneg : 0 ≤ ticks) (hpos : 0 < perSecond) :
    0 ≤ ticks / perSecond ∧ ticks / perSecond ≤ ticks ∧
      0 ≤ ticks - ticks / perSecond * perSecond ∧
      ticks - ticks / perSecond * perSecond < perSecond ∧
      (ticks - ticks / perSecond * perSecond ≠ 0 → 2 * (ticks / perSecond) ≤ ticks) := by
  have hsplit : ticks / perSecond * perSecond + ticks % perSecond = ticks :=
    Int.ediv_mul_add_emod ticks perSecond
  have hrest : 0 ≤ ticks % perSecond := Int.emod_nonneg ticks hpos.ne'
  have hlt : ticks % perSecond < perSecond := Int.emod_lt_of_pos ticks hpos
  have hquot : 0 ≤ ticks / perSecond := Int.ediv_nonneg hnonneg hpos.le
  have hle : ticks / perSecond ≤ ticks := Int.ediv_le_self perSecond hnonneg
  refine ⟨hquot, hle, by omega, by omega, fun hne => ?_⟩
  have htwo : ticks / perSecond * 2 ≤ ticks / perSecond * perSecond :=
    Int.mul_le_mul_of_nonneg_left (by omega) hquot
  omega

/-- With no more than a second carried over, and with nothing carried over where there is a
tick to a second, the seconds stay in range. -/
theorem normalized_quotient_isSome {ticks q perSecond : Int} {s : Sign} {x : Float}
    (hlimit : ticks < signedLimit) (hquot : 0 ≤ q) (hle : q ≤ ticks)
    (htwo : ticks - q * perSecond ≠ 0 → 2 * q ≤ ticks)
    (hx : UpTo s (if ticks - q * perSecond = 0 then 0 else 1) (number x)) :
    (normalized (s.apply q) x).isSome := by
  have hsigned : signedLimit = 2 ^ 63 := rfl
  obtain ⟨hleast, hmost⟩ := wholeSeconds_mem_range x
  obtain ⟨n, hupTo, hnonneg, hfew⟩ : ∃ n : Int, UpTo s n (number x) ∧ 0 ≤ n ∧
      (n = 0 ∨ n = 1 ∧ 2 * q ≤ ticks) := by
    split at hx
    · exact ⟨0, by exact_mod_cast hx, le_rfl, .inl rfl⟩
    · rename_i hleft
      exact ⟨1, by exact_mod_cast hx, zero_le_one, .inr ⟨rfl, htwo hleft⟩⟩
  cases s with
  | negative =>
    have hlow : -n ≤ wholeSeconds x := neg_le_wholeWithin hupTo hnonneg (by omega)
    rw [Sign.apply]
    refine normalized_isSome (by omega) (by omega) fun h => ?_
    have hsmall := wholeSeconds_le_of_one_le h
    omega
  | positive =>
    have hhigh : wholeSeconds x ≤ n := wholeWithin_le hupTo hnonneg (by omega)
    rw [Sign.apply]
    refine normalized_isSome (by omega) (by omega) fun h => ?_
    rcases hfew with rfl | ⟨rfl, hhalf⟩
    · have hneg : wholeSeconds x < 0 :=
        wholeWithin_neg_of_one_le h (by exact_mod_cast hupTo) (by omega)
      omega
    · omega

section Ticks

variable {ticks wholeRate q : Int} {rate : Float} {s : Sign}

/-- Where the rate has a whole part, the counts on the way are in range. -/
theorem ofTicks_eq_normalized (hnonneg : 0 ≤ ticks) (hlimit : ticks < signedLimit)
    (hwhole : Reckoning.truncate rate = wholeRate) (hpos : 0 < s.apply wholeRate)
    (hq : ticks / s.apply wholeRate = q) :
    ofTicks ticks rate = normalized (s.apply q) ((Real.ofInt (ticks - q * s.apply wholeRate) -
      Real.ofInt (s.apply q) * (rate - Real.ofInt wholeRate)) / rate) := by
  have hsigned : signedLimit = 2 ^ 63 := rfl
  obtain ⟨hquot, hle, hleft, -, -⟩ := left_over hnonneg hpos
  rw [hq] at hquot hle hleft
  have hne : wholeRate ≠ 0 := by
    rintro rfl
    cases s <;> exact absurd hpos (by decide)
  have hproduct : 0 ≤ q * s.apply wholeRate := Int.mul_nonneg hquot hpos.le
  have happly : s.apply q = q ∨ s.apply q = -q := by
    cases s with
    | negative => exact .inr rfl
    | positive => exact .inl rfl
  have hseconds : Reckoning.fit Float (ticks.tdiv wholeRate) = some (s.apply q) := by
    rw [tdiv_eq_apply hnonneg, hq]
    exact fitSigned_eq_some (by omega) (by omega)
  have hcounted : Reckoning.fit Float (s.apply q * wholeRate) = some (q * s.apply wholeRate) := by
    rw [apply_mul]
    exact fitSigned_eq_some (by omega) (by omega)
  have hrest : Reckoning.fit Float (ticks - q * s.apply wholeRate) =
      some (ticks - q * s.apply wholeRate) := fitSigned_eq_some (by omega) (by omega)
  simp only [ofTicks, hwhole, if_neg hne, hseconds, hcounted, hrest, bind, Option.bind_some]
  rfl

/-- **A tick count that is not negative has a time at every rate.** -/
theorem ofTicks_isSome (hnonneg : 0 ≤ ticks) (hlimit : ticks < signedLimit) (rate : Float) :
    (ofTicks ticks rate).isSome := by
  have hsigned : signedLimit = 2 ^ 63 := rfl
  obtain ⟨wholeRate, hwhole⟩ : ∃ w : Int, Reckoning.truncate rate = w := ⟨_, rfl⟩
  by_cases hzero : wholeRate = 0
  · simp only [ofTicks, hwhole, hzero, if_true]
    exact ofSeconds_isSome _
  · obtain ⟨s, b, hb, hpos, hbound, hrate⟩ := exists_bound_of_rate hwhole hzero
    obtain ⟨hquot, hle, hleft, hlt, htwo⟩ := left_over hnonneg hpos
    have hrange : -signedLimit ≤ wholeRate ∧ wholeRate ≤ signedLimit - 1 :=
      hwhole ▸ Binary.Value.toIntWith_mem_range (by omega) (by omega) _
    have hcount : (s.apply (ticks / s.apply wholeRate)).natAbs < 2 ^ 64 := by
      cases s <;> rw [Sign.apply] <;> omega
    have hdirection : 0 ≤ s.apply (s.apply (ticks / s.apply wholeRate)) := by
      cases s <;> simpa [Sign.apply] using hquot
    rw [ofTicks_eq_normalized hnonneg hlimit hwhole hpos rfl]
    refine normalized_quotient_isSome hlimit hquot hle htwo ?_
    exact upTo_quotient hb hpos hbound (by omega) hrate hdirection hcount hleft hlt

end Ticks

end SampleStream.Timestamp
