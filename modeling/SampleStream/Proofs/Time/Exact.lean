import Mathlib.Tactic.FieldSimp
import Mathlib.Tactic.Ring
import SampleStream.Time.Exact
import SampleStream.Time.Timestamp

/-!
# What timestamps compute

Without rounding, a time is decided by its seconds taken together (`value`): it is the one
in normal form, whole seconds and a part of a second (`ofValue`). Every way to make a time
gives the one of the value that its formula stands for, so that tick counts come back from
their times at any rate but zero, and the order of times is that of their values. Main
statement: `reckons_exactly`.
-/

namespace SampleStream.Timestamp

variable {s t : Timestamp Exact}

/-! ## Values -/

/-- All seconds of a time. -/
def value (t : Timestamp Exact) : Rat := t.toSeconds.toRat

/-- The fraction is a part of a second. -/
def Normal (t : Timestamp Exact) : Prop := 0 ≤ t.fraction.toRat ∧ t.fraction.toRat < 1

/-- The time of a number of seconds. -/
def ofValue (x : Rat) : Timestamp Exact := ⟨⌊x⌋, ⟨Int.fract x⟩⟩

theorem value_eq_add (t : Timestamp Exact) : t.value = t.seconds + t.fraction.toRat := rfl

theorem value_ofValue (x : Rat) : (ofValue x).value = x := Int.floor_add_fract x

theorem normal_ofValue (x : Rat) : (ofValue x).Normal := ⟨Int.fract_nonneg x, Int.fract_lt_one x⟩

/-- The seconds of a time in normal form are the whole ones of its value. -/
theorem Normal.floor_value (h : t.Normal) : ⌊t.value⌋ = t.seconds := by
  rw [value_eq_add, Int.floor_intCast_add, Int.floor_eq_zero_iff.mpr h, add_zero]

/-- A time in normal form is decided by its value. -/
theorem Normal.eq_of_value (hs : s.Normal) (ht : t.Normal) (h : s.value = t.value) : s = t := by
  have hseconds : s.seconds = t.seconds := by rw [← hs.floor_value, h, ht.floor_value]
  have hfraction : s.fraction.toRat = t.fraction.toRat := by
    rw [value_eq_add, value_eq_add, hseconds] at h
    exact add_left_cancel h
  obtain ⟨seconds, ⟨fraction⟩⟩ := s
  obtain ⟨seconds', ⟨fraction'⟩⟩ := t
  cases hseconds
  cases hfraction
  rfl

/-! ## Making times -/

/-- Seconds and a fraction of any size make the time of their sum. The floor leaves less
than a second, and nothing is carried a second time. -/
theorem normalized_eq (seconds : Int) (fraction : Exact) :
    normalized seconds fraction = some (ofValue (seconds + fraction.toRat)) := by
  have hcarry : Reckoning.truncate (Reckoning.floor fraction) = ⌊fraction.toRat⌋ :=
    Exact.truncate_of_whole (Exact.toRat_floor fraction)
  have hrest : (fraction - Reckoning.floor fraction).toRat = Int.fract fraction.toRat := rfl
  have hsmall : ¬ Reckoning.atMost (Reckoning.ofInt 1) (fraction - Reckoning.floor fraction) := by
    rw [Exact.atMost_iff, Exact.toRat_ofInt, Int.cast_one, hrest, not_le]
    exact Int.fract_lt_one _
  rw [ofValue, Int.floor_intCast_add, Int.fract_intCast_add]
  simp only [normalized, hcarry, Exact.fit_eq, hsmall]
  rfl

theorem ofSeconds_eq (x : Exact) : ofSeconds x = some (ofValue x.toRat) := by
  rw [ofSeconds, normalized_eq, Int.cast_zero, zero_add]

/-- What the whole part of the rate leaves and what its rest takes off come to the fraction
that the count has at the rate itself. -/
theorem ofTicks_eq (ticks : Int) {rate : Exact} (hrate : rate.toRat ≠ 0) :
    ofTicks ticks rate = some (ofValue (ticks / rate.toRat)) := by
  rw [ofTicks]
  generalize Reckoning.truncate rate = whole
  by_cases hzero : whole = 0
  · simp only [hzero, if_true, ofSeconds_eq]
    rfl
  · simp only [if_neg hzero, Exact.fit_eq, bind, Option.bind_some, normalized_eq]
    generalize ticks.tdiv whole = seconds
    congr 2
    simp only [Exact.toRat_div, Exact.toRat_sub, Exact.toRat_mul, Exact.toRat_ofInt]
    push_cast
    field_simp
    ring

theorem add_eq (s t : Timestamp Exact) : s.add t = some (ofValue (s.value + t.value)) := by
  simp only [add, Exact.fit_eq, bind, Option.bind_some, normalized_eq, value_eq_add]
  congr 2
  simp only [Exact.toRat_add]
  push_cast
  ring

theorem sub_eq (s t : Timestamp Exact) : s.sub t = some (ofValue (s.value - t.value)) := by
  simp only [sub, Exact.fit_eq, bind, Option.bind_some, normalized_eq, value_eq_add]
  congr 2
  simp only [Exact.toRat_sub]
  push_cast
  ring

theorem addSeconds_eq (t : Timestamp Exact) (x : Exact) :
    t.addSeconds x = some (ofValue (t.value + x.toRat)) := by
  simp only [addSeconds, ofSeconds_eq, bind, Option.bind_some, add_eq, value_ofValue]

/-! ## Ticks and order -/

/-- The tick count of a time whose value is a whole number of ticks. -/
theorem toTicks_eq {rate : Exact} {ticks : Int} (h : t.value * rate.toRat = ticks) :
    t.toTicks rate = some ticks := by
  rw [toTicks]
  generalize Reckoning.truncate rate = whole
  have hrest : (Reckoning.ofInt t.seconds * (rate - Reckoning.ofInt whole) +
      t.fraction * rate).toRat = ((ticks - t.seconds * whole : Int) : Rat) := by
    simp only [Exact.toRat_add, Exact.toRat_mul, Exact.toRat_sub, Exact.toRat_ofInt]
    rw [value_eq_add] at h
    push_cast
    rw [← h]
    ring
  simp only [Exact.fit_eq, bind, Option.bind_some, Exact.nearest_of_whole hrest]
  congr 1
  ring

/-- Fewer whole seconds are less, whatever the fractions. -/
theorem Normal.value_lt (hs : s.Normal) (ht : t.Normal) (h : s.seconds < t.seconds) :
    s.value < t.value := by
  have hnext : (s.seconds : Rat) + 1 ≤ t.seconds := by exact_mod_cast h
  rw [value_eq_add, value_eq_add]
  linarith [hs.2, ht.1]

/-- Times in normal form are in the order of their values. -/
theorem Normal.compare_eq (hs : s.Normal) (ht : t.Normal) :
    s.compare t = some (cmp s.value t.value) := by
  rw [compare]
  rcases lt_trichotomy s.seconds t.seconds with hlt | heq | hgt
  · rw [if_pos hlt, (cmp_eq_lt_iff _ _).mpr (hs.value_lt ht hlt)]
  · rw [if_neg (by omega), if_neg (by omega), value_eq_add, value_eq_add, heq, cmp_add_left]
    rcases lt_trichotomy s.fraction.toRat t.fraction.toRat with hless | hsame | hmore
    · rw [Exact.atMost_iff.mpr hless.le, eq_false_of_ne_true (mt Exact.atMost_iff.mp hless.not_ge),
        (cmp_eq_lt_iff _ _).mpr hless]
    · rw [Exact.atMost_iff.mpr hsame.le, Exact.atMost_iff.mpr hsame.ge,
        (cmp_eq_eq_iff _ _).mpr hsame]
    · rw [eq_false_of_ne_true (mt Exact.atMost_iff.mp hmore.not_ge), Exact.atMost_iff.mpr hmore.le,
        (cmp_eq_gt_iff _ _).mpr hmore]
  · rw [if_neg (by omega), if_pos hgt, (cmp_eq_gt_iff _ _).mpr (ht.value_lt hs hgt)]

/-! ## Times that can be made -/

/-- The times that come of the ways to make one, one after the other. -/
inductive Made : Timestamp Exact → Prop where
  | zero : Made Timestamp.zero
  | normalized {seconds : Int} {fraction : Exact} {u : Timestamp Exact}
    (h : Timestamp.normalized seconds fraction = some u) : Made u
  | ofTicks {ticks : Int} {rate : Exact} {u : Timestamp Exact} (hrate : rate.toRat ≠ 0)
    (h : Timestamp.ofTicks ticks rate = some u) : Made u
  | add {a b u : Timestamp Exact} (ha : Made a) (hb : Made b) (h : a.add b = some u) : Made u
  | sub {a b u : Timestamp Exact} (ha : Made a) (hb : Made b) (h : a.sub b = some u) : Made u
  | addSeconds {a u : Timestamp Exact} {x : Exact} (ha : Made a) (h : a.addSeconds x = some u) :
    Made u

theorem Made.normal (h : Made t) : t.Normal := by
  have hnormal {x : Rat} (hmade : some (ofValue x) = some t) : t.Normal :=
    Option.some.inj hmade ▸ normal_ofValue x
  cases h with
  | zero => exact ⟨le_refl _, zero_lt_one⟩
  | normalized h => exact hnormal ((normalized_eq ..).symm.trans h)
  | ofTicks hrate h => exact hnormal ((ofTicks_eq _ hrate).symm.trans h)
  | add _ _ h => exact hnormal ((add_eq ..).symm.trans h)
  | sub _ _ h => exact hnormal ((sub_eq ..).symm.trans h)
  | addSeconds _ h => exact hnormal ((addSeconds_eq ..).symm.trans h)

/-- What is computed of times when nothing is rounded. -/
structure ReckonsExactly : Prop where
  /-- The fraction of a time is never negative and never a whole second. -/
  normal : ∀ t : Timestamp Exact, Made t → 0 ≤ t.fraction.toRat ∧ t.fraction.toRat < 1
  normalized : ∀ (seconds : Int) (fraction : Exact), ∃ t,
    Timestamp.normalized seconds fraction = some t ∧ t.value = seconds + fraction.toRat
  /-- A count has its time at any rate but zero, and comes back from it. -/
  ticks : ∀ (ticks : Int) (rate : Exact), rate.toRat ≠ 0 → ∃ t,
    ofTicks ticks rate = some t ∧ t.value = ticks / rate.toRat ∧ t.toTicks rate = some ticks
  add : ∀ s t : Timestamp Exact, ∃ u, s.add t = some u ∧ u.value = s.value + t.value
  sub : ∀ s t : Timestamp Exact, ∃ u, s.sub t = some u ∧ u.value = s.value - t.value
  addSeconds : ∀ (t : Timestamp Exact) (x : Exact), ∃ u,
    t.addSeconds x = some u ∧ u.value = t.value + x.toRat
  /-- Times that were made are in the order of their values. -/
  compare : ∀ s t : Timestamp Exact, Made s → Made t →
    s.compare t = some (cmp s.value t.value)
  /-- They are the same just if their values are. -/
  same : ∀ s t : Timestamp Exact, Made s → Made t → (s = t ↔ s.value = t.value)

theorem reckons_exactly : ReckonsExactly where
  normal _ h := h.normal
  normalized seconds fraction := ⟨_, normalized_eq seconds fraction, value_ofValue _⟩
  ticks ticks rate hrate := by
    refine ⟨_, ofTicks_eq ticks hrate, value_ofValue _, toTicks_eq ?_⟩
    rw [value_ofValue, div_mul_cancel₀ _ hrate]
  add s t := ⟨_, add_eq s t, value_ofValue _⟩
  sub s t := ⟨_, sub_eq s t, value_ofValue _⟩
  addSeconds t x := ⟨_, addSeconds_eq t x, value_ofValue _⟩
  compare _ _ hs ht := hs.normal.compare_eq ht.normal
  same _ _ hs ht := ⟨congrArg value, hs.normal.eq_of_value ht.normal⟩

/-- Seven ticks before the start of time, at a rate of one and a half ticks a second
backwards: a time after the start. -/
theorem reckons_exactly_backwards :
    (⟨-3 / 2⟩ : Exact).toRat ≠ 0 ∧ ∃ t, ofTicks (-7) ⟨-3 / 2⟩ = some t ∧ t.value = 14 / 3 ∧
      t.toTicks ⟨-3 / 2⟩ = some (-7) ∧ zero.compare t = some .lt := by
  have hrate : (⟨-3 / 2⟩ : Exact).toRat ≠ 0 := by norm_num
  obtain ⟨t, ht, hvalue, hticks⟩ := reckons_exactly.ticks (-7) ⟨-3 / 2⟩ hrate
  have hvalue : t.value = 14 / 3 := by
    rw [hvalue]
    norm_num
  have hstart : (zero : Timestamp Exact).value = 0 := by
    rw [value_eq_add]
    exact add_zero _
  refine ⟨hrate, t, ht, hvalue, hticks, ?_⟩
  rw [reckons_exactly.compare zero t .zero (.ofTicks hrate ht), hstart, hvalue,
    (cmp_eq_lt_iff _ _).mpr (by norm_num)]

end SampleStream.Timestamp
