import Mathlib
import SampleStream.Number.Real

/-!
# Doubles by their fields

A double is an unpacked number: not a number at all, an infinity, a zero, or a significand
with an exponent, each but the first with a sign. Operations round to an unpacked number,
which is then stored in 64 bits; storing keeps the sign, and it keeps a full significand as
it is (`stored_full`). The value that conversions and floors are decided by is that of the
unpacked number (`value_eq`).
-/

namespace SampleStream.Real

open Float.Model Float.Model.UnpackedFloat

/-! ## Fields -/

/-- What is left of a result once it is stored in 64 bits. -/
def stored (u : UnpackedFloat) : UnpackedFloat := (pack u).unpack

/-- The number with a sign and the fields of its exponent and its significand. -/
def assemble (s : Sign) (exponent : BitVec 11) (mantissa : BitVec 52) : UnpackedFloat :=
  if exponent = -1#11 then
    if mantissa = 0#52 then .infinity s else .notANumber
  else if exponent = 0#11 then
    if h : mantissa = 0#52 then .zero s
    else .finite s mantissa.toNat (-1074)
      (Nat.pos_of_ne_zero fun hzero => h (BitVec.eq_of_toNat_eq hzero))
  else .finite s (1#1 ++ mantissa).toNat ((exponent.toNat : Int) - 1075)
    (by rw [BitVec.toNat_append]; simp)

theorem unpack_eq_assemble (b : BitVec 64) :
    UnpackedFloat.unpack Format.binary64 b =
      assemble (Sign.ofBitVec (@unpackSign Format.binary64 b)) (@unpackExponent Format.binary64 b)
        (@unpackMantissa Format.binary64 b) := by
  rw [UnpackedFloat.unpack, assemble]
  by_cases h : @unpackExponent Format.binary64 b = 0#11
  · simp only [h]
    rfl
  · simp only [h]
    rfl

theorem unpack_packComponents (s : Sign) (exponent : BitVec 11) (mantissa : BitVec 52) :
    UnpackedFloat.unpack Format.binary64 (packComponents Format.binary64 s exponent mantissa) =
      assemble s exponent mantissa := by
  rw [unpack_eq_assemble, unpackMantissa_packComponents, unpackExponent_packComponents,
    unpackSign_packComponents, Sign.ofBitVec_toBitVec]

@[simp] theorem stored_notANumber : stored .notANumber = .notANumber :=
  @unpack_packedNaN Format.binary64

@[simp] theorem stored_infinity (s : Sign) : stored (.infinity s) = .infinity s :=
  (unpack_packComponents s (-1#11) 0#52).trans (by rw [assemble, if_pos rfl, if_pos rfl])

@[simp] theorem stored_zero (s : Sign) : stored (.zero s) = .zero s :=
  @unpack_packedZero Format.binary64 s

theorem toNat_append_one (mantissa : BitVec 52) :
    (1#1 ++ mantissa).toNat = 2 ^ 52 + mantissa.toNat := by
  rw [BitVec.toNat_append, ← Nat.shiftLeft_add_eq_or_of_lt mantissa.isLt]
  rfl

theorem pack_finite {s : Sign} {m : Nat} {e : Int} (hm : 0 < m) :
    UnpackedFloat.pack Format.binary64 (.finite s m e hm) =
      if 2048 ≤ (e + 1075).toNat + 1 then packedInfinity Format.binary64 s
      else if m.log2 = 52 then
        packComponents Format.binary64 s (BitVec.ofNat 11 (e + 1075).toNat) (BitVec.ofNat 52 m)
      else packComponents Format.binary64 s 0#11 (BitVec.ofNat 52 m) := by
  have hbias : e + (Format.binary64.exponentBias : Nat) + (52 : Nat) = e + 1075 := by
    rw [show Format.binary64.exponentBias = 1023 from rfl]
    omega
  have hbits : m.log2 + 1 = Format.binary64.mantissaBits ↔ m.log2 = 52 := by
    rw [show Format.binary64.mantissaBits = 53 from rfl]
    omega
  simp only [UnpackedFloat.pack, hbias, hbits]

/-- Full significands with an exponent in range are stored as they are. -/
theorem stored_full {s : Sign} {m : Nat} {e : Int} (hm : 0 < m) (hfull : m.log2 = 52)
    (hlow : -1074 ≤ e) (hhigh : e ≤ 971) :
    stored (.finite s m e hm) = .finite s m e hm := by
  have hsmall : (e + 1075).toNat < 2047 := by omega
  have hle : 2 ^ 52 ≤ m := hfull ▸ Nat.log2_self_le hm.ne'
  have hlt : m < 2 ^ 53 := by
    have := Nat.lt_log2_self (n := m)
    rwa [hfull] at this
  have hexp : (BitVec.ofNat 11 (e + 1075).toNat).toNat = (e + 1075).toNat := by
    rw [BitVec.toNat_ofNat, Nat.mod_eq_of_lt (by omega)]
  have hmantissa : (1#1 ++ BitVec.ofNat 52 m).toNat = m := by
    rw [toNat_append_one, BitVec.toNat_ofNat]
    omega
  have hones : BitVec.ofNat 11 (e + 1075).toNat ≠ -1#11 := by
    intro h
    have := congrArg BitVec.toNat h
    rw [hexp] at this
    change (e + 1075).toNat = 2047 at this
    omega
  have hzero : BitVec.ofNat 11 (e + 1075).toNat ≠ 0#11 := by
    intro h
    have := congrArg BitVec.toNat h
    rw [hexp] at this
    change (e + 1075).toNat = 0 at this
    omega
  have hpack : UnpackedFloat.pack Format.binary64 (.finite s m e hm) =
      packComponents Format.binary64 s (BitVec.ofNat 11 (e + 1075).toNat)
        (BitVec.ofNat 52 m) := by
    rw [pack_finite, if_neg (by omega), if_pos hfull]
  change UnpackedFloat.unpack Format.binary64
    (UnpackedFloat.pack Format.binary64 (.finite s m e hm)) = _
  rw [hpack, unpack_packComponents, assemble, if_neg hones, if_neg hzero]
  simp only [hmantissa, hexp]
  congr 1
  omega

/-- Other significands are stored at the least exponent, and become no greater. -/
theorem stored_short {s : Sign} {m : Nat} {e : Int} (hm : 0 < m) (hshort : m.log2 ≠ 52)
    (hhigh : e ≤ 971) :
    stored (.finite s m e hm) = .zero s ∨
      ∃ m' hm', m' ≤ m ∧ stored (.finite s m e hm) = .finite s m' (-1074) hm' := by
  have hpack : UnpackedFloat.pack Format.binary64 (.finite s m e hm) =
      packComponents Format.binary64 s 0#11 (BitVec.ofNat 52 m) := by
    rw [pack_finite, if_neg (by omega), if_neg hshort]
  have hstored : stored (.finite s m e hm) = UnpackedFloat.unpack Format.binary64
    (UnpackedFloat.pack Format.binary64 (.finite s m e hm)) := rfl
  rw [hstored, hpack, unpack_packComponents, assemble, if_neg (by decide), if_pos rfl]
  split
  · exact .inl rfl
  · rename_i hne
    have hpos : 0 < (BitVec.ofNat 52 m).toNat :=
      Nat.pos_of_ne_zero fun hzero => hne (BitVec.eq_of_toNat_eq hzero)
    refine .inr ⟨(BitVec.ofNat 52 m).toNat, hpos, ?_, rfl⟩
    rw [BitVec.toNat_ofNat]
    exact Nat.mod_le _ _

/-! ## Signs -/

/-- Not a number, or of the sign `s`. -/
def OfSign (s : Sign) : UnpackedFloat → Prop
  | .notANumber => True
  | .infinity s' => s' = s
  | .zero s' => s' = s
  | .finite s' _ _ _ => s' = s

theorem ofSign_assemble (s : Sign) (exponent : BitVec 11) (mantissa : BitVec 52) :
    OfSign s (assemble s exponent mantissa) := by
  rw [assemble]
  split
  · split
    · rfl
    · trivial
  · split
    · split <;> rfl
    · rfl

theorem OfSign.stored {s : Sign} {u : UnpackedFloat} (h : OfSign s u) : OfSign s (stored u) := by
  cases u with
  | notANumber => rw [stored_notANumber]; trivial
  | infinity s' => rw [stored_infinity]; exact h
  | zero s' => rw [stored_zero]; exact h
  | finite s' m e hm =>
    obtain rfl : s' = s := h
    have hcomponents : ∀ exponent mantissa, OfSign s' (UnpackedFloat.unpack Format.binary64
        (packComponents Format.binary64 s' exponent mantissa)) := by
      intro exponent mantissa
      rw [unpack_packComponents]
      exact ofSign_assemble s' exponent mantissa
    change OfSign s' (UnpackedFloat.unpack Format.binary64
      (UnpackedFloat.pack Format.binary64 (.finite s' m e hm)))
    rw [pack_finite]
    split
    · exact hcomponents _ _
    · split
      · exact hcomponents _ _
      · exact hcomponents _ _

/-! ## Numbers by their bits -/

theorem toNat_unpackMantissa (b : BitVec 64) :
    (@unpackMantissa Format.binary64 b).toNat = b.toNat % 2 ^ 52 := by
  rw [unpackMantissa, BitVec.toNat_cast, BitVec.extractLsb_toNat, Nat.shiftRight_zero]
  rfl

theorem toNat_unpackExponent (b : BitVec 64) :
    (@unpackExponent Format.binary64 b).toNat = b.toNat / 2 ^ 52 % 2 ^ 11 := by
  rw [unpackExponent, BitVec.toNat_cast, BitVec.extractLsb_toNat, Nat.shiftRight_eq_div_pow]
  rfl

theorem toNat_unpackSign (b : BitVec 64) :
    (@unpackSign Format.binary64 b).toNat = b.toNat / 2 ^ 63 % 2 := by
  rw [unpackSign, BitVec.toNat_cast, BitVec.extractLsb_toNat, Nat.shiftRight_eq_div_pow]
  rfl

/-- The number without its layout in bits. -/
def number (x : Float) : UnpackedFloat := x.toModel.unpack

/-- The value of a number, negative zero being a value of its own. -/
def valueOf : UnpackedFloat → Binary.Value
  | .notANumber => .notANumber
  | .infinity s => .infinite (s == .negative)
  | .zero s => .finite (s == .negative) 0 (-1074)
  | .finite s m e _ => .finite (s == .negative) m e

theorem double_unpack (bits : Nat) :
    Binary.double.unpack bits =
      if bits / 2 ^ 52 % 2 ^ 11 = 2047 then
        if bits % 2 ^ 52 = 0 then .infinite (bits / 2 ^ 63 % 2 == 1) else .notANumber
      else if bits / 2 ^ 52 % 2 ^ 11 = 0 then
        .finite (bits / 2 ^ 63 % 2 == 1) (bits % 2 ^ 52) (-1074)
      else
        .finite (bits / 2 ^ 63 % 2 == 1) (bits % 2 ^ 52 + 2 ^ 52)
          (-1074 + ((bits / 2 ^ 52 % 2 ^ 11 : Nat) : Int) - 1) := rfl

theorem valueOf_assemble (s : Sign) (exponent : BitVec 11) (mantissa : BitVec 52) :
    valueOf (assemble s exponent mantissa) =
      if exponent.toNat = 2047 then
        if mantissa.toNat = 0 then .infinite (s == .negative) else .notANumber
      else if exponent.toNat = 0 then .finite (s == .negative) mantissa.toNat (-1074)
      else .finite (s == .negative) (mantissa.toNat + 2 ^ 52)
        (-1074 + (exponent.toNat : Int) - 1) := by
  have hones : exponent.toNat = 2047 ↔ exponent = -1#11 :=
    ⟨fun h => BitVec.eq_of_toNat_eq h, fun h => h ▸ rfl⟩
  have hleast : exponent.toNat = 0 ↔ exponent = 0#11 :=
    ⟨fun h => BitVec.eq_of_toNat_eq h, fun h => h ▸ rfl⟩
  have hzero : mantissa.toNat = 0 ↔ mantissa = 0#52 :=
    ⟨fun h => BitVec.eq_of_toNat_eq h, fun h => h ▸ rfl⟩
  simp only [hones, hleast, hzero, assemble]
  split
  · split <;> rfl
  · split
    · split
      · rename_i h
        subst h
        rfl
      · rfl
    · simp only [valueOf, toNat_append_one, Nat.add_comm]
      congr 1
      omega

theorem valueOf_unpack (b : BitVec 64) :
    valueOf (UnpackedFloat.unpack Format.binary64 b) = Binary.double.unpack b.toNat := by
  have hsign : ∀ sign : BitVec 1,
      (Sign.ofBitVec sign == .negative) = (sign.toNat == 1) := by decide
  rw [unpack_eq_assemble, valueOf_assemble, hsign, toNat_unpackMantissa, toNat_unpackExponent,
    toNat_unpackSign, double_unpack]

theorem value_eq (x : Float) : value x = valueOf (number x) :=
  (valueOf_unpack x.toModel.toBits.toBitVec).symm

theorem number_bounds {x : Float} {s : Sign} {m : Nat} {e : Int} {hm : 0 < m}
    (h : number x = .finite s m e hm) : m < 2 ^ 53 ∧ -1074 ≤ e ∧ e ≤ 971 := by
  rw [number, Float.Model.unpack, unpack_eq_assemble, assemble] at h
  generalize @unpackMantissa Format.binary64 x.toModel.toBits.toBitVec = mantissa at h
  generalize @unpackExponent Format.binary64 x.toModel.toBits.toBitVec = exponent at h
  have hmantissa : mantissa.toNat < 2 ^ 52 := mantissa.isLt
  have hexponent : exponent.toNat < 2 ^ 11 := exponent.isLt
  split at h
  · split at h <;> cases h
  · split at h
    · split at h
      · cases h
      · cases h
        omega
    · cases h
      rename_i hones hleast
      have h1 : exponent.toNat ≠ 2047 := fun heq => hones (BitVec.eq_of_toNat_eq heq)
      have h2 : exponent.toNat ≠ 0 := fun heq => hleast (BitVec.eq_of_toNat_eq heq)
      rw [toNat_append_one]
      omega

/-- The last place is one that can be stored. -/
def InRange : UnpackedFloat → Prop
  | .finite _ _ e _ => -1074 ≤ e ∧ e ≤ 971
  | _ => True

theorem inRange_number (x : Float) : InRange (number x) := by
  cases h : number x with
  | finite s m e hm =>
    obtain ⟨-, hrange⟩ := number_bounds h
    exact hrange
  | _ => trivial

/-! ## Operations -/

theorem number_sub (x y : Float) :
    number (x - y) = stored (UnpackedFloat.sub Format.binary64 (number x) (number y)) := rfl

theorem number_mul (x y : Float) :
    number (x * y) = stored (UnpackedFloat.mul Format.binary64 (number x) (number y)) := rfl

theorem number_div (x y : Float) :
    number (x / y) = stored (UnpackedFloat.div Format.binary64 (number x) (number y)) := rfl

theorem number_neg (x : Float) : number (-x) = stored (UnpackedFloat.neg (number x)) := rfl

theorem number_ofNat {n : Nat} (hn : n < 2 ^ 64) :
    number (ofNat n) = stored (UnpackedFloat.normalize Format.binary64 n 0 .positive) := by
  have hbits : (UInt64.ofNat n).toNat = n := by
    rw [UInt64.toNat_ofNat', Nat.mod_eq_of_lt hn]
  show stored (UnpackedFloat.normalize Format.binary64 ((UInt64.ofNat n).toNat : Int) 0
    .positive) = _
  rw [hbits]

end SampleStream.Real
