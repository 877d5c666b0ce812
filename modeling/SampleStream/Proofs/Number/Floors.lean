import SampleStream.Proofs.Number.Bounds

/-!
# Floors of doubles

Whole numbers below `2 ^ 53` are held exactly, so that the floor of a double is the exact one
(`truncate_floor`). What is left of a number above its floor reaches one only by rounding, and
never for a number that is whole already (`not_one_le_sub_self`).
-/

namespace SampleStream.Real

open Float.Model Float.Model.UnpackedFloat

/-! ## Whole numbers -/

theorem roundWithAccuracy_full (s : Sign) {m : Nat} {e : Int} (hm : 0 < m) (hfull : m.log2 = 52)
    (he : -1074 ≤ e) :
    roundWithAccuracy Format.binary64 s m e .exact = .finite s m e hm := by
  have hplace : (Format.binary64.targetExponent (totalExponent m e) - e).toNat = 0 := by
    rw [targetExponent_eq, totalExponent, hfull]
    omega
  have hshift (em : ExtendedMantissa) : em >>> 0 = em := rfl
  have hround : (ExtendedMantissa.ofMantissaAndAccuracy m .exact).roundedMantissa = m := rfl
  simp only [roundWithAccuracy, shiftToTargetExponent, shiftToExponent, hplace, hshift, hround,
    mantissa_ofExact, Nat.cast_zero, add_zero]
  rw [dif_neg hm.ne']

/-- The significand of a whole number, brought to its full length. -/
theorem log2_full {n : Nat} (hn : 0 < n) (hsmall : n < 2 ^ 53) :
    (n * 2 ^ (52 - n.log2)).log2 = 52 := by
  have hlog : n.log2 < 53 := (Nat.log2_lt hn.ne').mpr hsmall
  have hlow : 2 ^ n.log2 ≤ n := Nat.log2_self_le hn.ne'
  have hhigh : n < 2 ^ (n.log2 + 1) := Nat.lt_log2_self
  have hpow : 0 < 2 ^ (52 - n.log2) := by positivity
  refine (Nat.log2_eq_iff (by positivity)).mpr ⟨?_, ?_⟩
  · calc 2 ^ 52 = 2 ^ n.log2 * 2 ^ (52 - n.log2) := by rw [← pow_add]; congr 1; omega
      _ ≤ n * 2 ^ (52 - n.log2) := Nat.mul_le_mul_right _ hlow
  · calc n * 2 ^ (52 - n.log2) < 2 ^ (n.log2 + 1) * 2 ^ (52 - n.log2) :=
          Nat.mul_lt_mul_of_pos_right hhigh hpow
      _ = 2 ^ (52 + 1) := by rw [← pow_add]; congr 1; omega

theorem number_ofNat_small {n : Nat} (hn : 0 < n) (hsmall : n < 2 ^ 53) :
    ∃ h, number (ofNat n) =
      .finite .positive (n * 2 ^ (52 - n.log2)) (-((52 - n.log2 : Nat) : Int)) h := by
  have hlog : n.log2 < 53 := (Nat.log2_lt hn.ne').mpr hsmall
  have hfull := log2_full hn hsmall
  have hpos : 0 < n * 2 ^ (52 - n.log2) := by positivity
  have hshift : (0 - Format.binary64.targetExponent (totalExponent n 0)).toNat = 52 - n.log2 := by
    rw [targetExponent_eq, totalExponent]
    omega
  refine ⟨hpos, ?_⟩
  rw [number_ofNat (by omega), UnpackedFloat.normalize, Int.compare_eq_gt.mpr (by omega)]
  simp only [UnpackedFloat.round, decreaseExponent, Int.toNat_natCast, hshift, Nat.shiftLeft_eq]
  rw [roundWithAccuracy_full .positive hpos hfull (by omega), stored_full hpos hfull (by omega)
    (by omega), zero_sub]

theorem truncated_full (n k : Nat) : Binary.truncated (n * 2 ^ k) (-(k : Int)) = n := by
  rw [Binary.truncated, neg_neg, Int.toNat_natCast, Int.toNat_of_nonpos (by omega), pow_zero,
    mul_one, Nat.mul_div_cancel _ (by positivity)]

theorem number_ofNat_zero : number (ofNat 0) = .zero .positive := by
  rw [number_ofNat (by norm_num)]
  exact stored_zero .positive

theorem truncated_zero (e : Int) : Binary.truncated 0 e = 0 := by
  rw [Binary.truncated, Nat.zero_mul, Nat.zero_div]

theorem truncate_ofNat {n : Nat} (hsmall : n < 2 ^ 53) (low high : Int) :
    truncate low high (ofNat n) = max low (min high n) := by
  rcases Nat.eq_zero_or_pos n with rfl | hn
  · rw [truncate, value_eq, number_ofNat_zero, valueOf, Binary.Value.toIntWith, truncated_zero]
    rfl
  · obtain ⟨h, hnumber⟩ := number_ofNat_small hn hsmall
    rw [truncate, value_eq, hnumber, valueOf, Binary.Value.toIntWith, truncated_full]
    rfl

theorem truncate_neg_ofNat {n : Nat} (hsmall : n < 2 ^ 53) (low high : Int) :
    truncate low high (-ofNat n) = max low (min high (-n)) := by
  rcases Nat.eq_zero_or_pos n with rfl | hn
  · rw [truncate, value_eq, number_neg, number_ofNat_zero, UnpackedFloat.neg, stored_zero, valueOf,
      Binary.Value.toIntWith, truncated_zero]
    rfl
  · obtain ⟨h, hnumber⟩ := number_ofNat_small hn hsmall
    have hlog : n.log2 < 53 := (Nat.log2_lt hn.ne').mpr hsmall
    rw [truncate, value_eq, number_neg, hnumber, UnpackedFloat.neg,
      stored_full h (log2_full hn hsmall) (by omega) (by omega), valueOf, Binary.Value.toIntWith,
      truncated_full]
    rfl

/-! ## The floor -/

/-- The exact value of a finite number. -/
def toRat : UnpackedFloat → Rat
  | .finite s m e _ => unit s * (m * 2 ^ e)
  | _ => 0

theorem mul_zpow_eq_div (m : Nat) (e : Int) :
    (m : Rat) * 2 ^ e = ((m * 2 ^ e.toNat : Nat) : Rat) / (2 ^ (-e).toNat : Nat) := by
  rcases le_total 0 e with h | h
  · rw [Int.toNat_of_nonpos (neg_nonpos.mpr h), pow_zero, Nat.cast_one, div_one]
    push_cast
    rw [← zpow_natCast, Int.toNat_of_nonneg h]
  · rw [Int.toNat_of_nonpos h, pow_zero, mul_one, Nat.cast_pow, Nat.cast_ofNat, ← zpow_natCast,
      Int.toNat_of_nonneg (neg_nonneg.mpr h), zpow_neg, div_inv_eq_mul]

theorem truncated_eq_floor (m : Nat) (e : Int) :
    (Binary.truncated m e : Int) = ⌊(m : Rat) * 2 ^ e⌋ := by
  have hfloor := Rat.floor_intCast_div_natCast (m * 2 ^ e.toNat : Nat) (2 ^ (-e).toNat)
  rw [Int.cast_natCast] at hfloor
  rw [Binary.truncated, mul_zpow_eq_div, hfloor, Int.natCast_div]

/-- Whether a finite number is whole is a matter of the places behind the point. -/
theorem truncated_of_whole {m : Nat} {e : Int} (h : m % 2 ^ (-e).toNat = 0) :
    (m : Rat) * 2 ^ e = Binary.truncated m e := by
  have hdvd : 2 ^ (-e).toNat ∣ m * 2 ^ e.toNat := (Nat.dvd_of_mod_eq_zero h).mul_right _
  rw [mul_zpow_eq_div, Binary.truncated, Nat.cast_div hdvd (by positivity)]

theorem ceil_eq_of_part {m : Nat} {e : Int} (h : m % 2 ^ (-e).toNat ≠ 0) :
    ⌈(m : Rat) * 2 ^ e⌉ = (m / 2 ^ (-e).toNat + 1 : Nat) := by
  have hneg : e ≤ 0 := by
    by_contra hle
    rw [Int.toNat_of_nonpos (by omega), pow_zero, Nat.mod_one] at h
    exact h rfl
  rw [mul_zpow_eq_div, Int.toNat_of_nonpos hneg, pow_zero, Nat.mul_one]
  have hpos : 0 < 2 ^ (-e).toNat := by positivity
  generalize 2 ^ (-e).toNat = unit at h hpos
  have hpos' : (0 : Rat) < unit := by exact_mod_cast hpos
  have hsplit := Nat.div_add_mod' m unit
  have hrest := Nat.mod_lt m hpos
  rw [Int.ceil_eq_iff, lt_div_iff₀ hpos', div_le_iff₀ hpos']
  constructor
  · have hlt : m / unit * unit < m := by omega
    push_cast
    rw [add_sub_cancel_right]
    exact_mod_cast hlt
  · have hle : m ≤ (m / unit + 1) * unit := by
      rw [Nat.add_mul, Nat.one_mul]
      omega
    exact_mod_cast hle

theorem floor_eq {x : Float} {s : Sign} {m : Nat} {e : Int} {hm : 0 < m}
    (hx : number x = .finite s m e hm) :
    floor x =
      if m % 2 ^ (-e).toNat = 0 then x
      else if s == .negative then -ofNat (m / 2 ^ (-e).toNat + 1)
      else ofNat (m / 2 ^ (-e).toNat) := by
  rw [floor, value_eq, hx]
  rfl

/-- The floor of a finite number is the exact one. -/
theorem truncate_floor_finite {x : Float} {s : Sign} {m : Nat} {e : Int} {hm : 0 < m}
    (hx : number x = .finite s m e hm) (low high : Int) :
    truncate low high (floor x) = max low (min high ⌊toRat (number x)⌋) := by
  rw [floor_eq hx]
  split
  · rename_i hwhole
    rw [truncate, value_eq, hx, valueOf, Binary.Value.toIntWith, toRat, truncated_of_whole hwhole]
    cases s with
    | negative =>
      have hfloor : ⌊unit .negative * (Binary.truncated m e : Rat)⌋ =
          -(Binary.truncated m e : Int) := by
        rw [unit, neg_one_mul, ← Int.cast_natCast, ← Int.cast_neg, Int.floor_intCast]
      rw [hfloor]
      rfl
    | positive =>
      have hfloor : ⌊unit .positive * (Binary.truncated m e : Rat)⌋ =
          (Binary.truncated m e : Int) := by
        rw [unit, one_mul, Int.floor_natCast]
      rw [hfloor]
      rfl
  · rename_i hpart
    obtain ⟨hbits, -, -⟩ := number_bounds hx
    have hneg : 0 < -e := by
      by_contra hle
      rw [Int.toNat_of_nonpos (by omega), pow_zero, Nat.mod_one] at hpart
      exact hpart rfl
    have hunit : 2 ≤ 2 ^ (-e).toNat := Nat.le_self_pow (by omega) 2
    have hsmall : m / 2 ^ (-e).toNat < 2 ^ 52 := by
      refine Nat.div_lt_of_lt_mul (lt_of_lt_of_le hbits ?_)
      omega
    have htruncated : Binary.truncated m e = m / 2 ^ (-e).toNat := by
      rw [Binary.truncated, Int.toNat_of_nonpos (by omega), pow_zero, Nat.mul_one]
    cases s with
    | negative =>
      have hfloor : ⌊unit .negative * ((m : Rat) * 2 ^ e)⌋ =
          -((m / 2 ^ (-e).toNat + 1 : Nat) : Int) := by
        rw [unit, neg_one_mul, Int.floor_neg, ceil_eq_of_part hpart]
      rw [if_pos (by decide), truncate_neg_ofNat (by omega), hx, toRat, hfloor]
    | positive =>
      have hfloor : ⌊unit .positive * ((m : Rat) * 2 ^ e)⌋ =
          ((m / 2 ^ (-e).toNat : Nat) : Int) := by
        rw [unit, one_mul, ← truncated_eq_floor, htruncated]
      rw [if_neg (by decide), truncate_ofNat (by omega), hx, toRat, hfloor]

/-- Numbers that are not finite, and zeros, are their own floor. -/
theorem floor_eq_self {x : Float} (hx : ∀ s m e hm, number x ≠ .finite s m e hm) :
    floor x = x := by
  rw [floor, value_eq]
  cases h : number x with
  | notANumber => rfl
  | infinity s => rfl
  | zero s => exact if_pos (Nat.zero_mod _)
  | finite s m e hm => exact absurd h (hx s m e hm)

/-- The greatest whole number that is not above a number, within `[low, high]`. -/
def wholeWithin (low high : Int) : UnpackedFloat → Int
  | .notANumber => 0
  | .infinity .negative => low
  | .infinity .positive => high
  | .zero _ => max low (min high 0)
  | .finite s m e hm => max low (min high ⌊toRat (.finite s m e hm)⌋)

theorem truncate_floor (x : Float) (low high : Int) :
    truncate low high (floor x) = wholeWithin low high (number x) := by
  cases h : number x with
  | finite s m e hm => rw [truncate_floor_finite h, h, wholeWithin]
  | notANumber =>
    rw [floor_eq_self (by simp [h]), truncate, value_eq, h]
    rfl
  | infinity s =>
    rw [floor_eq_self (by simp [h]), truncate, value_eq, h]
    cases s <;> rfl
  | zero s =>
    rw [floor_eq_self (by simp [h]), truncate, value_eq, h, valueOf, Binary.Value.toIntWith,
      truncated_zero]
    cases s <;> rfl

theorem toRat_le {u : UnpackedFloat} {b : Rat} (h : UpTo .positive b u) (hb : 0 ≤ b) :
    toRat u ≤ b := by
  cases u with
  | finite s m e hm => rwa [UpTo, mul_assoc, unit, one_mul] at h
  | _ => exact hb

theorem neg_le_toRat {u : UnpackedFloat} {b : Rat} (h : UpTo .negative b u) (hb : 0 ≤ b) :
    -b ≤ toRat u := by
  cases u with
  | finite s m e hm =>
    rw [UpTo, mul_assoc, unit, neg_one_mul] at h
    rw [toRat]
    linarith
  | _ => exact neg_nonpos.mpr hb

/-- A whole number that bounds a number bounds its floor. -/
theorem wholeWithin_le {u : UnpackedFloat} {n low high : Int} (h : UpTo .positive n u)
    (hn : 0 ≤ n) (hlow : low ≤ 0) : wholeWithin low high u ≤ n := by
  have hfloor : ⌊toRat u⌋ ≤ n := by
    exact_mod_cast (Int.floor_le _).trans (toRat_le h (by exact_mod_cast hn))
  match u with
  | .notANumber => exact hn
  | .infinity .negative => exact hlow.trans hn
  | .infinity .positive => exact absurd h nofun
  | .zero s =>
    rw [wholeWithin]
    omega
  | .finite s m e hm =>
    rw [wholeWithin]
    omega

theorem neg_le_wholeWithin {u : UnpackedFloat} {n low high : Int} (h : UpTo .negative n u)
    (hn : 0 ≤ n) (hhigh : 0 ≤ high) : -n ≤ wholeWithin low high u := by
  have hfloor : -n ≤ ⌊toRat u⌋ := by
    rw [Int.le_floor]
    push_cast
    exact neg_le_toRat h (by exact_mod_cast hn)
  match u with
  | .notANumber => exact neg_nonpos.mpr hn
  | .infinity .negative => exact absurd h nofun
  | .infinity .positive => exact (neg_nonpos.mpr hn).trans hhigh
  | .zero s =>
    rw [wholeWithin]
    omega
  | .finite s m e hm =>
    rw [wholeWithin]
    omega

theorem wholeWithin_mem_range {low high : Int} (hlow : low ≤ 0) (hhigh : 0 ≤ high)
    (u : UnpackedFloat) : low ≤ wholeWithin low high u ∧ wholeWithin low high u ≤ high := by
  match u with
  | .notANumber => exact ⟨hlow, hhigh⟩
  | .infinity .negative => exact ⟨le_refl low, hlow.trans hhigh⟩
  | .infinity .positive => exact ⟨hlow.trans hhigh, le_refl high⟩
  | .zero s =>
    rw [wholeWithin]
    omega
  | .finite s m e hm =>
    rw [wholeWithin]
    omega

/-! ## What is above the floor -/

theorem le_iff {x y : Float} : x ≤ y ↔ (number x).le (number y) = true := by
  show decide (x.toModel ≤ y.toModel) = true ↔ _
  rw [decide_eq_true_iff]
  rfl

theorem number_ofInt_one : ∃ m e hm, number (ofInt 1) = .finite .positive m e hm := by
  obtain ⟨hm, h⟩ := number_ofNat_small (n := 1) (by norm_num) (by norm_num)
  exact ⟨_, _, hm, h⟩

theorem sub_self_unpacked (u : UnpackedFloat) :
    UnpackedFloat.sub Format.binary64 u u = .notANumber ∨
      UnpackedFloat.sub Format.binary64 u u = .zero .positive := by
  cases u with
  | notANumber => exact .inl rfl
  | infinity s => cases s <;> exact .inl rfl
  | zero s => cases s <;> exact .inr rfl
  | finite s m e hm =>
    right
    simp only [UnpackedFloat.sub, sub_self]
    rfl

/-- Nothing is left of a number without itself. -/
theorem not_one_le_sub_self (x : Float) : ¬ ofInt 1 ≤ x - x := by
  obtain ⟨m, e, hm, hone⟩ := number_ofInt_one
  rw [le_iff, hone, number_sub]
  rcases sub_self_unpacked (number x) with h | h <;> rw [h]
  · rw [stored_notANumber]
    nofun
  · rw [stored_zero]
    nofun

/-- One is left of a number above its floor only where the number has a part behind the
point. -/
theorem exists_part_of_one_le {x : Float} (h : ofInt 1 ≤ x - floor x) :
    ∃ s m e hm, number x = .finite s m e hm ∧ e < 0 := by
  have hne : floor x ≠ x := fun heq => not_one_le_sub_self x (by rwa [heq] at h)
  cases hx : number x with
  | finite s m e hm =>
    refine ⟨s, m, e, hm, rfl, ?_⟩
    by_contra hwhole
    refine hne ((floor_eq hx).trans (if_pos ?_))
    rw [Int.toNat_of_nonpos (by omega), pow_zero, Nat.mod_one]
  | _ => exact absurd (floor_eq_self (by simp [hx])) hne

theorem wholeWithin_le_of_one_le {x : Float} (h : ofInt 1 ≤ x - floor x) {low high : Int}
    (hlow : low ≤ 0) : wholeWithin low high (number x) ≤ 2 ^ 52 := by
  obtain ⟨s, m, e, hm, hx, he⟩ := exists_part_of_one_le h
  obtain ⟨hbits, -, -⟩ := number_bounds hx
  have hle : (m : Rat) * 2 ^ e ≤ (2 ^ 52 : Int) := by
    have hhalf : (2 : Rat) ^ e ≤ 2 ^ (-1 : Int) := zpow_le_zpow_right₀ one_le_two (by omega)
    have hcast : (m : Rat) ≤ 2 ^ 53 := by exact_mod_cast hbits.le
    calc (m : Rat) * 2 ^ e ≤ 2 ^ 53 * 2 ^ (-1 : Int) :=
          mul_le_mul hcast hhalf (by positivity) (by positivity)
      _ = (2 ^ 52 : Int) := by norm_num
  have hbound : UpTo .positive ((2 ^ 52 : Int) : Rat) (number x) := by
    rw [hx]
    rcases eq_or_eq_neg .positive s with rfl | rfl
    · exact upTo_finite_self.mpr hle
    · have hopposite : OfSign (-.positive) (.finite (-.positive) m e hm) := rfl
      exact hopposite.upTo (by norm_num)
  exact wholeWithin_le hbound (by norm_num) hlow

theorem wholeWithin_neg_of_one_le {x : Float} (h : ofInt 1 ≤ x - floor x)
    (hx : UpTo .positive 0 (number x)) {low high : Int} (hlow : low < 0) :
    wholeWithin low high (number x) < 0 := by
  obtain ⟨s, m, e, hm, hnumber, -⟩ := exists_part_of_one_le h
  rw [hnumber] at hx ⊢
  have hpos : (0 : Rat) < m * 2 ^ e := by positivity
  rcases eq_or_eq_neg .positive s with rfl | rfl
  · exact absurd (upTo_finite_self.mp hx) (not_le.mpr hpos)
  · have hfloor : ⌊toRat (.finite (-.positive) m e hm)⌋ < 0 := by
      rw [Int.floor_lt, toRat, unit_neg]
      norm_num [unit]
      exact hpos
    rw [wholeWithin]
    omega

end SampleStream.Real
