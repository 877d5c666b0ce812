import SampleStream.Proofs.Number.Doubles

/-!
# Rounding keeps to what can be held

A significand that is cut off with a round bit and a sticky bit lies below the exact value,
and strictly below it if either bit is set (`Below`). Rounding it up is therefore no step
past a whole number of last places that the exact value did not pass, which is what every
bound with 53 bits is (`roundWithAccuracy_fits`, `round_fits`).
-/

namespace SampleStream.Real

open Float.Model Float.Model.UnpackedFloat

/-! ## Cutting off -/

/-- The significand is the integer part of `v` or less, and less than `v` itself if
anything was cut off. -/
def Below (em : ExtendedMantissa) (v : Rat) : Prop :=
  (em.mantissa : Rat) ≤ v ∧
    (em.roundBit = true ∨ em.stickyBit = true → (em.mantissa : Rat) < v)

namespace Below

variable {em : ExtendedMantissa} {v : Rat}

theorem shiftRightOne (h : Below em v) : Below em.shiftRightOne (v / 2) := by
  obtain ⟨hle, hlt⟩ := h
  have hhalf : 2 * ((em.mantissa / 2 : Nat) : Rat) + ((em.mantissa % 2 : Nat) : Rat) =
      em.mantissa := by
    exact_mod_cast Nat.div_add_mod em.mantissa 2
  have hrest : (0 : Rat) ≤ ((em.mantissa % 2 : Nat) : Rat) := Nat.cast_nonneg _
  constructor
  · show ((em.mantissa / 2 : Nat) : Rat) ≤ v / 2
    linarith
  · intro hcut
    show ((em.mantissa / 2 : Nat) : Rat) < v / 2
    rcases hcut with hround | hsticky
    · -- an odd significand leaves a one behind
      have hodd : em.mantissa % 2 ≠ 0 := by
        simpa [ExtendedMantissa.shiftRightOne] using hround
      have hone : (1 : Rat) ≤ ((em.mantissa % 2 : Nat) : Rat) := by
        exact_mod_cast Nat.one_le_iff_ne_zero.mpr hodd
      linarith
    · have hcut : em.roundBit = true ∨ em.stickyBit = true := by
        simpa [ExtendedMantissa.shiftRightOne] using hsticky
      linarith [hlt hcut]

theorem shiftRight (h : Below em v) (n : Nat) : Below (em >>> n) (v / 2 ^ n) := by
  show Below (n.repeat ExtendedMantissa.shiftRightOne em) (v / 2 ^ n)
  induction n with
  | zero => simpa [Nat.repeat] using h
  | succ n ih =>
    rw [Nat.repeat, pow_succ, ← div_div]
    exact ih.shiftRightOne

/-- Rounding does not go past a whole number that is not passed already. -/
theorem roundedMantissa_le (h : Below em v) {n : Nat} (hv : v ≤ n) :
    em.roundedMantissa ≤ n := by
  obtain ⟨hle, hlt⟩ := h
  have hfloor : em.mantissa ≤ n := by exact_mod_cast hle.trans hv
  have hup : em.roundBit = true ∨ em.stickyBit = true → em.mantissa + 1 ≤ n := by
    intro hcut
    exact_mod_cast (hlt hcut).trans_le hv
  obtain ⟨m, round, sticky⟩ := em
  cases round <;> cases sticky <;>
    simp only [ExtendedMantissa.roundedMantissa, ExtendedMantissa.accuracy,
      Accuracy.roundToNearestEven] at *
  · exact hfloor
  · exact hfloor
  · have := hup (.inl trivial)
    omega
  · exact hup (.inl trivial)

end Below

theorem below_ofMantissaAndAccuracy {m : Nat} {accuracy : Accuracy} {v : Rat}
    (hle : (m : Rat) ≤ v) (hlt : accuracy ≠ .exact → (m : Rat) < v) :
    Below (ExtendedMantissa.ofMantissaAndAccuracy m accuracy) v := by
  cases accuracy with
  | exact => exact ⟨hle, by simp [ExtendedMantissa.ofMantissaAndAccuracy]⟩
  | inexact o =>
    have h := hlt (by simp)
    cases o <;> exact ⟨hle, fun _ => h⟩

theorem mantissa_shiftRight (em : ExtendedMantissa) (n : Nat) :
    (em >>> n).mantissa = em.mantissa / 2 ^ n := by
  show (n.repeat ExtendedMantissa.shiftRightOne em).mantissa = em.mantissa / 2 ^ n
  induction n with
  | zero => simp [Nat.repeat]
  | succ n ih =>
    rw [Nat.repeat, ExtendedMantissa.shiftRightOne, ih, Nat.div_div_eq_div_mul, pow_succ]

theorem mantissa_ofExact (m : Nat) :
    (ExtendedMantissa.ofMantissaAndAccuracy m .exact).mantissa = m := rfl

theorem two_zpow_le {m : Nat} (hm : 0 < m) (e : Int) :
    (2 : Rat) ^ ((m.log2 : Int) + e) ≤ m * 2 ^ e := by
  have hlog : ((2 ^ m.log2 : Nat) : Rat) ≤ m := by exact_mod_cast Nat.log2_self_le hm.ne'
  rw [zpow_add₀ two_ne_zero, zpow_natCast]
  push_cast at hlog
  exact mul_le_mul_of_nonneg_right hlog (by positivity)

theorem lt_two_zpow (m : Nat) (e : Int) : (m : Rat) * 2 ^ e < 2 ^ ((m.log2 : Int) + 1 + e) := by
  have hlog : (m : Rat) < ((2 ^ (m.log2 + 1) : Nat) : Rat) := by
    exact_mod_cast Nat.lt_log2_self
  have hpow : (2 : Rat) ^ ((m.log2 : Int) + 1 + e) =
      ((2 ^ (m.log2 + 1) : Nat) : Rat) * 2 ^ e := by
    rw [zpow_add₀ two_ne_zero]
    push_cast
    rfl
  rw [hpow]
  exact mul_lt_mul_of_pos_right hlog (by positivity)

theorem zpow_lt_of_lt {a b : Int} (h : (2 : Rat) ^ a < 2 ^ b) : a < b :=
  (zpow_lt_zpow_iff_right₀ one_lt_two).mp h

theorem targetExponent_eq (total : Int) :
    Format.binary64.targetExponent total = max (total - 53) (-1074) := rfl

/-- The last place that a value is rounded to is not above that of a significand of 53 bits
for a greater one. -/
theorem targetExponent_le {m k : Nat} {e t : Int} (hm : 0 < m) (hk : k < 2 ^ 53)
    (ht : -1074 ≤ t) (h : (m : Rat) * 2 ^ e ≤ k * 2 ^ t) :
    Format.binary64.targetExponent (totalExponent m e) ≤ t := by
  have hk' : (k : Rat) * 2 ^ t < 2 ^ (53 + t) := by
    have hcast : (k : Rat) < 2 ^ 53 := by exact_mod_cast hk
    rw [zpow_add₀ two_ne_zero]
    exact mul_lt_mul_of_pos_right (by exact_mod_cast hcast) (by positivity)
  have hlog := zpow_lt_of_lt (((two_zpow_le hm e).trans h).trans_lt hk')
  rw [targetExponent_eq, totalExponent]
  omega

theorem zpow_split {e t : Int} (h : e ≤ t) : (2 : Rat) ^ t = 2 ^ (t - e).toNat * 2 ^ e := by
  rw [← zpow_natCast, Int.toNat_of_nonneg (by omega), ← zpow_add₀ two_ne_zero]
  congr 1
  omega

/-- A result of the sign `s` of at most `b`, with its last place between the least one
and `t`. -/
def Fits (s : Sign) (b : Rat) (t : Int) : UnpackedFloat → Prop
  | .zero s' => s' = s
  | .finite s' m e _ => s' = s ∧ (m : Rat) * 2 ^ e ≤ b ∧ -1074 ≤ e ∧ e ≤ t
  | _ => False

/-- Rounding keeps to the bounds that can be held with 53 bits. -/
theorem roundWithAccuracy_fits (s : Sign) {m k : Nat} {e t : Int} {accuracy : Accuracy}
    {v : Rat} (hle : (m : Rat) ≤ v) (hlt : accuracy ≠ .exact → (m : Rat) < v)
    (hv : v * 2 ^ e ≤ k * 2 ^ t) (hk : k < 2 ^ 53) (ht : -1074 ≤ t) (he : e ≤ t)
    (htarget : Format.binary64.targetExponent (totalExponent m e) ≤ t) :
    Fits s (k * 2 ^ t) t (roundWithAccuracy Format.binary64 s m e accuracy) := by
  obtain ⟨shift, hshift⟩ :
      ∃ n, n = (Format.binary64.targetExponent (totalExponent m e) - e).toNat := ⟨_, rfl⟩
  have hplace : e + shift ≤ t := by omega
  have hleast : -1074 ≤ e + shift := by
    rw [targetExponent_eq] at hshift
    omega
  obtain ⟨r, hr⟩ : ∃ r, r =
    (ExtendedMantissa.ofMantissaAndAccuracy m accuracy >>> shift).roundedMantissa := ⟨_, rfl⟩
  -- the bound is a whole number of last places, so that rounding stops at it
  have hwhole : v / 2 ^ shift ≤ (k * 2 ^ (t - (e + shift)).toNat : Nat) := by
    have hv' : v * 2 ^ e ≤ k * 2 ^ (t - e).toNat * 2 ^ e := by
      rwa [mul_assoc, ← zpow_split he]
    have hnat : (t - e).toNat = (t - (e + shift)).toNat + shift := by omega
    rw [div_le_iff₀ (by positivity)]
    push_cast
    rw [mul_assoc, ← pow_add, ← hnat]
    exact le_of_mul_le_mul_right hv' (by positivity)
  have hrounded : r ≤ k * 2 ^ (t - (e + shift)).toNat :=
    hr ▸ ((below_ofMantissaAndAccuracy hle hlt).shiftRight shift).roundedMantissa_le hwhole
  have hbound : (r : Rat) * 2 ^ (e + shift) ≤ k * 2 ^ t := by
    have hcast : (r : Rat) ≤ k * 2 ^ (t - (e + shift)).toNat := by exact_mod_cast hrounded
    rw [zpow_split hplace, ← mul_assoc]
    exact mul_le_mul_of_nonneg_right hcast (by positivity)
  -- a carry is shifted out again, which loses nothing of the bound
  obtain ⟨carry, hcarry⟩ : ∃ n, n = (Format.binary64.targetExponent
    (totalExponent r (e + shift)) - (e + shift)).toNat := ⟨_, rfl⟩
  have hround : roundWithAccuracy Format.binary64 s m e accuracy =
      if h : r / 2 ^ carry = 0 then .zero s
      else .finite s (r / 2 ^ carry) (e + shift + carry) (Nat.pos_of_ne_zero h) := by
    simp only [roundWithAccuracy, shiftToTargetExponent, shiftToExponent, ← hshift, ← hr,
      ← hcarry, mantissa_shiftRight, mantissa_ofExact]
  rw [hround]
  split
  · rfl
  · rename_i hne
    have hpos : 0 < r := Nat.pos_of_ne_zero fun h => hne (by rw [h, Nat.zero_div])
    have htop : Format.binary64.targetExponent (totalExponent r (e + shift)) ≤ t :=
      targetExponent_le hpos hk ht hbound
    refine ⟨rfl, ?_, by omega, by omega⟩
    have hdiv : ((r / 2 ^ carry : Nat) : Rat) * 2 ^ carry ≤ r := by
      exact_mod_cast Nat.div_mul_le_self r (2 ^ carry)
    calc ((r / 2 ^ carry : Nat) : Rat) * 2 ^ (e + shift + carry)
        = ((r / 2 ^ carry : Nat) : Rat) * 2 ^ carry * 2 ^ (e + shift) := by
          rw [zpow_add₀ two_ne_zero, zpow_natCast]
          ring
      _ ≤ r * 2 ^ (e + shift) := mul_le_mul_of_nonneg_right hdiv (by positivity)
      _ ≤ k * 2 ^ t := hbound

theorem round_fits (s : Sign) {m k : Nat} {e t : Int} (hm : 0 < m)
    (h : (m : Rat) * 2 ^ e ≤ k * 2 ^ t) (hk : k < 2 ^ 53) (ht : -1074 ≤ t) :
    Fits s (k * 2 ^ t) t (UnpackedFloat.round Format.binary64 s m e) := by
  have htarget : Format.binary64.targetExponent (totalExponent m e) ≤ t :=
    targetExponent_le hm hk ht h
  obtain ⟨shift, hshift⟩ :
      ∃ n, n = (e - Format.binary64.targetExponent (totalExponent m e)).toNat := ⟨_, rfl⟩
  have hround : UnpackedFloat.round Format.binary64 s m e =
      roundWithAccuracy Format.binary64 s (m * 2 ^ shift) (e - shift) .exact := by
    simp only [UnpackedFloat.round, decreaseExponent, ← hshift, Nat.shiftLeft_eq]
  have hsame : ((m * 2 ^ shift : Nat) : Rat) * 2 ^ (e - shift) = m * 2 ^ e := by
    rw [zpow_sub₀ two_ne_zero, zpow_natCast]
    push_cast
    field_simp
  have hle : ((m * 2 ^ shift : Nat) : Rat) * 2 ^ (e - shift) ≤ k * 2 ^ t := hsame.trans_le h
  rw [hround]
  exact roundWithAccuracy_fits s le_rfl (fun hne => absurd rfl hne) hle hk ht (by omega)
    (targetExponent_le (by positivity) hk ht hle)

theorem ofSign_roundWithAccuracy (s : Sign) (m : Nat) (e : Int) (accuracy : Accuracy) :
    OfSign s (roundWithAccuracy Format.binary64 s m e accuracy) := by
  rw [roundWithAccuracy]
  dsimp only
  split <;> rfl

end SampleStream.Real
