import SampleStream.Proofs.Number.Rounding

/-!
# Bounds of doubles

A bound that a double can hold is kept by the operations on doubles, whatever they round:
what is at most `p` less what is at least `q` is at most `p - q` (`upTo_sub`), products and
quotients have the sign of their factors (`upTo_mul`), and the quotient of a number by one
that is no smaller is at most one (`upTo_div`). Bounds are taken in the direction of a sign,
so that they are upper bounds and lower bounds in one (`UpTo`).
-/

namespace SampleStream.Real

open Float.Model Float.Model.UnpackedFloat

variable {s s' : Sign} {b c p q : Rat} {m : Nat} {e : Int} {u v : UnpackedFloat} {x y : Float}

/-! ## Bounds -/

/-- One, with a sign. -/
def unit : Sign → Rat
  | .negative => -1
  | .positive => 1

theorem unit_mul_self (s : Sign) : unit s * unit s = 1 := by
  cases s <;> norm_num [unit]

theorem unit_neg (s : Sign) : unit (-s) = -unit s := by
  cases s
  · exact (neg_neg (1 : Rat)).symm
  · rfl

theorem eq_or_eq_neg (s s' : Sign) : s' = s ∨ s' = -s := by
  cases s <;> cases s' <;> first | exact .inl rfl | exact .inr rfl

/-- As far as it is a number, at most `b` when it is taken with the sign `s`. -/
def UpTo (s : Sign) (b : Rat) : UnpackedFloat → Prop
  | .notANumber => True
  | .infinity s' => s' = -s
  | .zero _ => 0 ≤ b
  | .finite s' m e _ => unit s * unit s' * (m * 2 ^ e) ≤ b

theorem upTo_finite_self {hm : 0 < m} : UpTo s b (.finite s m e hm) ↔ (m : Rat) * 2 ^ e ≤ b := by
  rw [UpTo, unit_mul_self, one_mul]

theorem upTo_finite_neg {hm : 0 < m} :
    UpTo s b (.finite (-s) m e hm) ↔ -((m : Rat) * 2 ^ e) ≤ b := by
  rw [UpTo, unit_neg, mul_neg, unit_mul_self, neg_one_mul]

theorem UpTo.mono (h : UpTo s b u) (hbc : b ≤ c) : UpTo s c u := by
  cases u with
  | notANumber => trivial
  | infinity s' => exact h
  | zero s' => exact le_trans h hbc
  | finite s' m e hm => exact le_trans h hbc

theorem OfSign.upTo (h : OfSign (-s) u) (hb : 0 ≤ b) : UpTo s b u := by
  cases u with
  | notANumber => trivial
  | infinity s' => exact h
  | zero s' => exact hb
  | finite s' m e hm =>
    obtain rfl : s' = -s := h
    have hpos : (0 : Rat) ≤ m * 2 ^ e := by positivity
    exact upTo_finite_neg.mpr (by linarith)

theorem Fits.upTo {t : Int} (h : Fits s b t u) (hb : 0 ≤ b) : UpTo s b u := by
  cases u with
  | notANumber => trivial
  | infinity s' => exact h.elim
  | zero s' => exact hb
  | finite s' m e hm =>
    obtain ⟨rfl, hle, -, -⟩ := h
    exact upTo_finite_self.mpr hle

theorem Fits.inRange {t : Int} (h : Fits s b t u) (ht : t ≤ 971) : InRange u := by
  cases u with
  | finite s' m e hm =>
    obtain ⟨-, -, hlow, hhigh⟩ := h
    exact ⟨hlow, hhigh.trans ht⟩
  | _ => trivial

/-- Storing keeps to bounds on either side of zero. -/
theorem UpTo.stored (h : UpTo s b u) (hrange : InRange u) (hb : 0 ≤ b) : UpTo s b (stored u) := by
  cases u with
  | notANumber => rw [stored_notANumber]; trivial
  | infinity s' => rw [stored_infinity]; exact h
  | zero s' => rw [stored_zero]; exact hb
  | finite s' m e hm =>
    obtain ⟨hlow, hhigh⟩ := hrange
    rcases eq_or_eq_neg s s' with rfl | rfl
    · by_cases hfull : m.log2 = 52
      · rw [stored_full hm hfull hlow hhigh]
        exact h
      · rcases stored_short (s := s') hm hfull hhigh with hzero | ⟨m', hm', hle, hshort⟩
        · rw [hzero]
          exact hb
        · rw [hshort]
          refine upTo_finite_self.mpr (le_trans ?_ (upTo_finite_self.mp h))
          have hcast : (m' : Rat) ≤ m := by exact_mod_cast hle
          have hpow : (2 : Rat) ^ (-1074 : Int) ≤ 2 ^ e := zpow_le_zpow_right₀ one_le_two hlow
          exact mul_le_mul hcast hpow (by positivity) (by positivity)
    · exact (OfSign.stored (show OfSign (-s) (.finite (-s) m e hm) from rfl)).upTo hb

/-- The bounds that a double can be: those with 53 bits between the least and the greatest
place. -/
def Held (b : Rat) : Prop :=
  ∃ (k : Nat) (t : Int), k < 2 ^ 53 ∧ -1074 ≤ t ∧ t ≤ 971 ∧ b = k * 2 ^ t

theorem Held.nonneg (h : Held b) : 0 ≤ b := by
  obtain ⟨k, t, -, -, -, rfl⟩ := h
  positivity

theorem held_zero : Held 0 := ⟨0, 0, by norm_num, by norm_num, by norm_num, by norm_num⟩

theorem ofSign_round (s : Sign) (m : Nat) (e : Int) :
    OfSign s (UnpackedFloat.round Format.binary64 s m e) :=
  ofSign_roundWithAccuracy ..

theorem upTo_round (hm : 0 < m) (h : unit s * unit s' * (m * 2 ^ e) ≤ b) (hb : Held b) :
    UpTo s b (stored (UnpackedFloat.round Format.binary64 s' m e)) := by
  have hnonneg := hb.nonneg
  rcases eq_or_eq_neg s s' with rfl | rfl
  · rw [unit_mul_self, one_mul] at h
    obtain ⟨k, t, hk, hlow, hhigh, rfl⟩ := hb
    have hfits := round_fits s' hm h hk hlow
    exact (hfits.upTo hnonneg).stored (hfits.inRange hhigh) hnonneg
  · exact (ofSign_round (-s) m e).stored.upTo hnonneg

theorem upTo_normalize {n : Int} (zeroSign : Sign) (h : unit s * (n * 2 ^ e) ≤ b) (hb : Held b) :
    UpTo s b (stored (UnpackedFloat.normalize Format.binary64 n e zeroSign)) := by
  rcases lt_trichotomy n 0 with hlt | rfl | hgt
  · have hcast : (((-n).toNat : Nat) : Rat) = -n := by
      exact_mod_cast Int.toNat_of_nonneg (show 0 ≤ -n by omega)
    have hbound : unit s * unit .negative * (((-n).toNat : Rat) * 2 ^ e) ≤ b := by
      refine le_of_eq_of_le ?_ h
      rw [hcast, unit]
      ring
    rw [UnpackedFloat.normalize, Int.compare_eq_lt.mpr hlt]
    exact upTo_round (by omega) hbound hb
  · rw [UnpackedFloat.normalize, Int.compare_eq_eq.mpr rfl, stored_zero]
    exact hb.nonneg
  · have hcast : ((n.toNat : Nat) : Rat) = n := by
      exact_mod_cast Int.toNat_of_nonneg hgt.le
    have hbound : unit s * unit .positive * ((n.toNat : Rat) * 2 ^ e) ≤ b := by
      refine le_of_eq_of_le ?_ h
      rw [hcast, unit]
      ring
    rw [UnpackedFloat.normalize, Int.compare_eq_gt.mpr hgt]
    exact upTo_round (by omega) hbound hb

/-! ## Operations -/

theorem upTo_ofNat {n : Nat} (hn : n < 2 ^ 64) (h : unit s * n ≤ b) (hb : Held b) :
    UpTo s b (number (ofNat n)) := by
  rw [number_ofNat hn]
  refine upTo_normalize .positive ?_ hb
  rwa [zpow_zero, mul_one, Int.cast_natCast]

theorem neg_neg_sign (s : Sign) : - -s = s := by
  cases s <;> rfl

theorem upTo_neg_iff : UpTo s b u.neg ↔ UpTo (-s) b u := by
  cases u with
  | notANumber => rfl
  | infinity s' =>
    show -s' = -s ↔ s' = - -s
    cases s <;> cases s' <;> first | exact iff_of_true rfl rfl | exact iff_of_false nofun nofun
  | zero s' => rfl
  | finite s' m e hm =>
    have hsame : unit s * -unit s' * (m * 2 ^ e) = -unit s * unit s' * (m * 2 ^ e) := by ring
    rw [UnpackedFloat.neg, UpTo, UpTo, unit_neg, unit_neg, hsame]

theorem upTo_neg (h : UpTo (-s) b (number x)) (hb : 0 ≤ b) : UpTo s b (number (-x)) := by
  have hrange : InRange (number x).neg := by
    have hrange := inRange_number x
    cases hx : number x with
    | finite s' m e hm => rw [hx] at hrange; exact hrange
    | _ => trivial
  exact (upTo_neg_iff.mpr h).stored hrange hb

theorem upTo_ofInt {z : Int} (hz : z.natAbs < 2 ^ 64) (h : unit s * z ≤ b) (hb : Held b) :
    UpTo s b (number (ofInt z)) := by
  rw [ofInt]
  split
  · rename_i hneg
    have hcast : ((z.natAbs : Nat) : Rat) = -z := by
      rw [← Int.cast_natCast, show (z.natAbs : Int) = -z by omega, Int.cast_neg]
    refine upTo_neg (upTo_ofNat hz ?_ hb) hb.nonneg
    rwa [hcast, unit_neg, neg_mul_neg]
  · rename_i hpos
    have hcast : ((z.natAbs : Nat) : Rat) = z := by
      rw [← Int.cast_natCast, show (z.natAbs : Int) = z by omega]
    exact upTo_ofNat hz (by rwa [hcast]) hb

/-- The exact difference of two finite numbers. -/
theorem cast_difference (s₁ s₂ : Sign) (m₁ m₂ : Nat) (e₁ e₂ : Int) :
    ((s₁.apply (decreaseExponent m₁ e₁ (min e₁ e₂)).1 -
        s₂.apply (decreaseExponent m₂ e₂ (min e₁ e₂)).1 : Int) : Rat) * 2 ^ min e₁ e₂ =
      unit s₁ * (m₁ * 2 ^ e₁) - unit s₂ * (m₂ * 2 ^ e₂) := by
  have happly (s : Sign) (m : Nat) (e least : Int) (h : least ≤ e) :
      ((s.apply (decreaseExponent m e least).1 : Int) : Rat) * 2 ^ least =
        unit s * (m * 2 ^ e) := by
    have hdecrease : (decreaseExponent m e least).1 = m * 2 ^ (e - least).toNat := by
      rw [decreaseExponent, Nat.shiftLeft_eq]
    rw [hdecrease, zpow_split h]
    cases s
    · simp only [Sign.apply, unit]
      push_cast
      ring
    · simp only [Sign.apply, unit]
      push_cast
      ring
  rw [Int.cast_sub, sub_mul, happly s₁ m₁ e₁ _ (min_le_left ..),
    happly s₂ m₂ e₂ _ (min_le_right ..)]

theorem upTo_notANumber : UpTo s b (stored .notANumber) := by
  rw [stored_notANumber]
  trivial

theorem upTo_infinity (h : s' = -s) : UpTo s b (stored (.infinity s')) := by
  rw [stored_infinity]
  exact h

theorem upTo_zero (hb : 0 ≤ b) : UpTo s b (stored (.zero s')) := by
  rw [stored_zero]
  exact hb

/-- A difference is bounded by the difference of the bounds. -/
theorem upTo_stored_sub (hu : UpTo s p u) (hv : UpTo (-s) q v) (hur : InRange u) (hvr : InRange v)
    (hpq : p + q ≤ b) (hb : Held b) :
    UpTo s b (stored (UnpackedFloat.sub Format.binary64 u v)) := by
  have hnonneg := hb.nonneg
  match u, v with
  | .notANumber, _ => exact upTo_notANumber
  | .infinity s₁, .notANumber => exact upTo_notANumber
  | .zero s₁, .notANumber => exact upTo_notANumber
  | .finite s₁ m₁ e₁ h₁, .notANumber => exact upTo_notANumber
  | .infinity s₁, .infinity s₂ =>
    rw [UnpackedFloat.sub]
    split
    · exact upTo_infinity hu
    · exact upTo_notANumber
  | .infinity s₁, .zero s₂ => exact upTo_infinity hu
  | .infinity s₁, .finite s₂ m₂ e₂ h₂ => exact upTo_infinity hu
  | .zero s₁, .infinity s₂ =>
    exact upTo_infinity (upTo_neg_iff.mpr hv : UpTo s q (.infinity (-s₂)))
  | .finite s₁ m₁ e₁ h₁, .infinity s₂ =>
    exact upTo_infinity (upTo_neg_iff.mpr hv : UpTo s q (.infinity (-s₂)))
  | .zero s₁, .zero s₂ =>
    rw [UnpackedFloat.sub]
    split <;> exact upTo_zero hnonneg
  | .zero s₁, .finite s₂ m₂ e₂ h₂ =>
    have hp : 0 ≤ p := hu
    have hneg : UpTo s q (.finite (-s₂) m₂ e₂ h₂) := upTo_neg_iff.mpr hv
    exact UpTo.stored (le_trans hneg (by linarith)) hvr hnonneg
  | .finite s₁ m₁ e₁ h₁, .zero s₂ =>
    have hq : 0 ≤ q := hv
    exact UpTo.stored (le_trans hu (by linarith) : UpTo s b (.finite s₁ m₁ e₁ h₁)) hur hnonneg
  | .finite s₁ m₁ e₁ h₁, .finite s₂ m₂ e₂ h₂ =>
    rw [UpTo] at hu
    rw [UpTo, unit_neg] at hv
    refine upTo_normalize .positive ?_ hb
    refine (congrArg (unit s * ·) (cast_difference s₁ s₂ m₁ m₂ e₁ e₂)).trans_le ?_
    calc unit s * (unit s₁ * (m₁ * 2 ^ e₁) - unit s₂ * (m₂ * 2 ^ e₂))
        = unit s * unit s₁ * (m₁ * 2 ^ e₁) + -unit s * unit s₂ * (m₂ * 2 ^ e₂) := by ring
      _ ≤ p + q := add_le_add hu hv
      _ ≤ b := hpq

theorem upTo_sub (hx : UpTo s p (number x)) (hy : UpTo (-s) q (number y)) (hpq : p + q ≤ b)
    (hb : Held b) : UpTo s b (number (x - y)) :=
  upTo_stored_sub hx hy (inRange_number x) (inRange_number y) hpq hb

/-! ## Signs of products and quotients -/

theorem upTo_zero_iff : UpTo s 0 u ↔ (∃ s', u = .zero s') ∨ OfSign (-s) u := by
  cases u with
  | notANumber => exact ⟨fun _ => .inr trivial, fun _ => trivial⟩
  | infinity s' =>
    constructor
    · exact .inr
    · rintro (⟨s'', h⟩ | h)
      · cases h
      · exact h
  | zero s' => exact ⟨fun _ => .inl ⟨s', rfl⟩, fun _ => le_refl (0 : Rat)⟩
  | finite s' m e hm =>
    constructor
    · intro h
      rcases eq_or_eq_neg s s' with rfl | rfl
      · have hpos : (0 : Rat) < m * 2 ^ e := by positivity
        exact absurd (upTo_finite_self.mp h) (not_le.mpr hpos)
      · exact .inr rfl
    · rintro (⟨s'', h⟩ | h)
      · cases h
      · exact h.upTo le_rfl

theorem ofSign_mul (hu : OfSign s u) (hv : OfSign s' v) :
    OfSign (s * s') (UnpackedFloat.mul Format.binary64 u v) := by
  match u, v with
  | .notANumber, _ => trivial
  | .infinity _, .notANumber => trivial
  | .zero _, .notANumber => trivial
  | .finite .., .notANumber => trivial
  | .infinity _, .zero _ => trivial
  | .zero _, .infinity _ => trivial
  | .infinity _, .infinity _ => exact congrArg₂ _ hu hv
  | .infinity _, .finite .. => exact congrArg₂ _ hu hv
  | .finite .., .infinity _ => exact congrArg₂ _ hu hv
  | .zero _, .zero _ => exact congrArg₂ _ hu hv
  | .zero _, .finite .. => exact congrArg₂ _ hu hv
  | .finite .., .zero _ => exact congrArg₂ _ hu hv
  | .finite s₁ m₁ e₁ h₁, .finite s₂ m₂ e₂ h₂ =>
    obtain rfl : s₁ = s := hu
    obtain rfl : s₂ = s' := hv
    exact ofSign_roundWithAccuracy ..

theorem ofSign_div (hu : OfSign s u) (hv : OfSign s' v) :
    OfSign (s / s') (UnpackedFloat.div Format.binary64 u v) := by
  match u, v with
  | .notANumber, _ => trivial
  | .infinity _, .notANumber => trivial
  | .zero _, .notANumber => trivial
  | .finite .., .notANumber => trivial
  | .infinity _, .infinity _ => trivial
  | .zero _, .zero _ => trivial
  | .infinity _, .zero _ => exact congrArg₂ _ hu hv
  | .zero _, .infinity _ => exact congrArg₂ _ hu hv
  | .infinity _, .finite .. => exact congrArg₂ _ hu hv
  | .finite .., .infinity _ => exact congrArg₂ _ hu hv
  | .zero _, .finite .. => exact congrArg₂ _ hu hv
  | .finite .., .zero _ => exact congrArg₂ _ hu hv
  | .finite s₁ m₁ e₁ h₁, .finite s₂ m₂ e₂ h₂ =>
    obtain rfl : s₁ = s := hu
    obtain rfl : s₂ = s' := hv
    exact ofSign_roundWithAccuracy ..

/-- A product of two numbers of one sign is not negative. -/
theorem upTo_mul (hx : UpTo (-s) 0 (number x)) (hy : UpTo (-s) 0 (number y)) :
    UpTo .negative 0 (number (x * y)) := by
  rw [number_mul]
  rcases upTo_zero_iff.mp hx with ⟨s₁, hzero⟩ | hsign
  · rw [hzero]
    cases number y with
    | notANumber => exact upTo_notANumber
    | infinity _ => exact upTo_notANumber
    | zero _ => exact upTo_zero le_rfl
    | finite s' m e hm => exact upTo_zero le_rfl
  · rcases upTo_zero_iff.mp hy with ⟨s₂, hzero⟩ | hsign'
    · rw [hzero]
      cases number x with
      | notANumber => exact upTo_notANumber
      | infinity _ => exact upTo_notANumber
      | zero _ => exact upTo_zero le_rfl
      | finite s' m e hm => exact upTo_zero le_rfl
    · have hproduct : - -s * - -s = -Sign.negative := by cases s <;> rfl
      exact (hproduct ▸ (ofSign_mul hsign hsign').stored).upTo le_rfl

/-- A quotient of a number that is not positive by one of the sign `s`. -/
theorem upTo_div_of_nonpositive (hx : UpTo .positive 0 (number x)) (hy : OfSign s (number y)) :
    UpTo s 0 (number (x / y)) := by
  rw [number_div]
  rcases upTo_zero_iff.mp hx with ⟨s₁, hzero⟩ | hsign
  · rw [hzero]
    cases number y with
    | notANumber => exact upTo_notANumber
    | infinity _ => exact upTo_zero le_rfl
    | zero _ => exact upTo_notANumber
    | finite s' m e hm => exact upTo_zero le_rfl
  · have hquotient : -Sign.positive / s = -s := by cases s <;> rfl
    exact (hquotient ▸ (ofSign_div hsign hy).stored).upTo le_rfl

/-- A number that is at least `b` in the direction of `s`, for a positive `b`. -/
theorem ofSign_of_upTo (h : UpTo (-s) (-b) u) (hb : 0 < b) : OfSign s u := by
  rcases upTo_zero_iff.mp (h.mono (by linarith)) with ⟨s', rfl⟩ | hsign
  · have hle : 0 ≤ -b := h
    linarith
  · rwa [neg_neg_sign] at hsign

/-! ## Quotients -/

theorem totalExponent_le {m₁ m₂ : Nat} {e₁ e₂ : Int} (h₁ : 0 < m₁)
    (hle : (m₁ : Rat) * 2 ^ e₁ ≤ m₂ * 2 ^ e₂) : totalExponent m₁ e₁ ≤ totalExponent m₂ e₂ := by
  have hlog := zpow_lt_of_lt (((two_zpow_le h₁ e₁).trans hle).trans_lt (lt_two_zpow m₂ e₂))
  rw [totalExponent, totalExponent]
  omega

/-- A quotient of significands that is at most one is rounded to no more than one. -/
theorem div_fits (s : Sign) {m₁ m₂ : Nat} {e₁ e₂ : Int} (h₁ : 0 < m₁) (h₂ : 0 < m₂)
    (hle : (m₁ : Rat) * 2 ^ e₁ ≤ m₂ * 2 ^ e₂) :
    Fits s 1 0 (roundWithAccuracy Format.binary64 s (divCore Format.binary64 m₁ e₁ m₂ e₂).1
      (divCore Format.binary64 m₁ e₁ m₂ e₂).2.1 (divCore Format.binary64 m₁ e₁ m₂ e₂).2.2) := by
  obtain ⟨place, hplace⟩ : ∃ p, p = min (e₁ - e₂)
    (Format.binary64.targetExponent (totalExponent m₁ e₁ - totalExponent m₂ e₂)) := ⟨_, rfl⟩
  obtain ⟨m, hm⟩ : ∃ m, m = m₁ * 2 ^ (e₁ - e₂ - place).toNat := ⟨_, rfl⟩
  have hcore : divCore Format.binary64 m₁ e₁ m₂ e₂ =
      (m / m₂, place, accuracyOfFraction (m % m₂) m₂) := by
    simp only [divCore, ← hplace, Nat.shiftLeft_eq, ← hm]
  have htotal := totalExponent_le h₁ hle
  have hsmall : place ≤ -53 := by
    rw [targetExponent_eq] at hplace
    omega
  have hpos : (0 : Rat) < m₂ := by exact_mod_cast h₂
  have hquotient : (m : Rat) / m₂ * 2 ^ place ≤ (1 : Nat) * 2 ^ (0 : Int) := by
    have hsplit : (m : Rat) * 2 ^ place = m₁ * 2 ^ (e₁ - e₂) := by
      rw [zpow_split (show place ≤ e₁ - e₂ by omega), hm]
      push_cast
      ring
    rw [div_mul_eq_mul_div, hsplit, div_le_iff₀ hpos, zpow_sub₀ two_ne_zero, ← mul_div_assoc,
      div_le_iff₀ (by positivity)]
    simpa [mul_comm, mul_assoc, mul_left_comm] using hle
  have hfloor : ((m / m₂ : Nat) : Rat) ≤ m / m₂ := Nat.cast_div_le
  have hcut : accuracyOfFraction (m % m₂) m₂ ≠ .exact → ((m / m₂ : Nat) : Rat) < m / m₂ := by
    intro hne
    have hrest : m % m₂ ≠ 0 := fun h => hne (by rw [accuracyOfFraction, if_pos h])
    rw [lt_div_iff₀ hpos]
    have hsplit := Nat.div_add_mod' m m₂
    exact_mod_cast (show m / m₂ * m₂ < m by omega)
  have htarget : Format.binary64.targetExponent (totalExponent (m / m₂) place) ≤ 0 := by
    rcases Nat.eq_zero_or_pos (m / m₂) with hzero | hpositive
    · rw [hzero, targetExponent_eq, totalExponent, Nat.log2_zero]
      omega
    · refine targetExponent_le hpositive (by norm_num : 1 < 2 ^ 53) (by norm_num) ?_
      refine le_trans ?_ hquotient
      exact mul_le_mul_of_nonneg_right hfloor (by positivity)
  rw [hcore]
  have hfits := roundWithAccuracy_fits s hfloor hcut hquotient (by norm_num) (by norm_num)
    (by omega) htarget
  rwa [Nat.cast_one, one_mul, zpow_zero] at hfits

theorem upTo_div_finite (s : Sign) {m₁ m₂ : Nat} {e₁ e₂ : Int} {h₁ : 0 < m₁} {h₂ : 0 < m₂}
    (hle : (m₁ : Rat) * 2 ^ e₁ ≤ m₂ * 2 ^ e₂) :
    UpTo s 1 (stored (UnpackedFloat.div Format.binary64 (.finite .positive m₁ e₁ h₁)
      (.finite s m₂ e₂ h₂))) := by
  have hdiv : UnpackedFloat.div Format.binary64 (.finite .positive m₁ e₁ h₁)
      (.finite s m₂ e₂ h₂) = roundWithAccuracy Format.binary64 (.positive / s)
        (divCore Format.binary64 m₁ e₁ m₂ e₂).1 (divCore Format.binary64 m₁ e₁ m₂ e₂).2.1
        (divCore Format.binary64 m₁ e₁ m₂ e₂).2.2 := rfl
  have hquotient : Sign.positive / s = s := by cases s <;> rfl
  have hfits := div_fits s h₁ h₂ hle
  rw [hdiv, hquotient]
  exact (hfits.upTo zero_le_one).stored (hfits.inRange (by norm_num)) zero_le_one

/-- A quotient of a number by one that is no smaller is at most one. -/
theorem upTo_div (hx : UpTo .positive b (number x)) (hy : UpTo (-s) (-b) (number y)) (hb : 0 < b) :
    UpTo s 1 (number (x / y)) := by
  have hsign := ofSign_of_upTo hy hb
  by_cases hnonpositive : UpTo .positive 0 (number x)
  · exact (upTo_div_of_nonpositive hnonpositive hsign).mono zero_le_one
  · rw [number_div]
    cases hu : number x with
    | notANumber => exact absurd (hu ▸ trivial) hnonpositive
    | infinity s₁ =>
      rw [hu] at hx hnonpositive
      exact absurd hx hnonpositive
    | zero s₁ => exact absurd (hu ▸ le_refl (0 : Rat)) hnonpositive
    | finite s₁ m₁ e₁ h₁ =>
      rw [hu] at hx hnonpositive
      cases hv : number y with
      | notANumber => exact upTo_notANumber
      | infinity s₂ => exact upTo_zero zero_le_one
      | zero s₂ =>
        rw [hv] at hy
        exact absurd (neg_nonneg.mp hy) (not_le.mpr hb)
      | finite s₂ m₂ e₂ h₂ =>
        rw [hv] at hy hsign
        obtain rfl : s₂ = s := hsign
        rcases eq_or_eq_neg .positive s₁ with rfl | rfl
        · have hx' : (m₁ : Rat) * 2 ^ e₁ ≤ b := upTo_finite_self.mp hx
          have hy' : b ≤ (m₂ : Rat) * 2 ^ e₂ := by
            rw [UpTo, unit_neg, neg_mul, unit_mul_self, neg_one_mul] at hy
            exact neg_le_neg_iff.mp hy
          exact upTo_div_finite s₂ (hx'.trans hy')
        · have hopposite : OfSign (-.positive) (.finite (-.positive) m₁ e₁ h₁) := rfl
          exact absurd (hopposite.upTo le_rfl) hnonpositive

end SampleStream.Real
