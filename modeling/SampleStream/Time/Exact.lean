import Mathlib.Data.Rat.Floor
import SampleStream.Time.Reckoning

/-!
# Reckoning without rounding

Rational numbers for fractions of a second and rates, and integers of any size for counts.
What is computed in them is what the formulas for timestamps mean: nothing is rounded but
where a formula rounds, and no count is out of range.
-/

namespace SampleStream

/-- A rational number to reckon time in. -/
structure Exact where
  toRat : Rat
deriving DecidableEq

namespace Exact

/-- Integer parts go toward zero, and ties to the nearest integer go away from it. -/
instance : Reckoning Exact where
  add a b := ⟨a.toRat + b.toRat⟩
  sub a b := ⟨a.toRat - b.toRat⟩
  mul a b := ⟨a.toRat * b.toRat⟩
  div a b := ⟨a.toRat / b.toRat⟩
  ofInt z := ⟨z⟩
  truncate x := if 0 ≤ x.toRat then ⌊x.toRat⌋ else ⌈x.toRat⌉
  nearest x := if 0 ≤ x.toRat then ⌊x.toRat + 1 / 2⌋ else ⌈x.toRat - 1 / 2⌉
  floor x := ⟨⌊x.toRat⌋⟩
  atMost a b := decide (a.toRat ≤ b.toRat)
  fit := some

@[simp] theorem toRat_add (a b : Exact) : (a + b).toRat = a.toRat + b.toRat := rfl

@[simp] theorem toRat_sub (a b : Exact) : (a - b).toRat = a.toRat - b.toRat := rfl

@[simp] theorem toRat_mul (a b : Exact) : (a * b).toRat = a.toRat * b.toRat := rfl

@[simp] theorem toRat_div (a b : Exact) : (a / b).toRat = a.toRat / b.toRat := rfl

@[simp] theorem toRat_ofInt (z : Int) : (Reckoning.ofInt z : Exact).toRat = z := rfl

@[simp] theorem toRat_floor (x : Exact) : (Reckoning.floor x).toRat = ⌊x.toRat⌋ := rfl

@[simp] theorem fit_eq (z : Int) : Reckoning.fit Exact z = some z := rfl

theorem atMost_iff {a b : Exact} : Reckoning.atMost a b = true ↔ a.toRat ≤ b.toRat :=
  decide_eq_true_iff

theorem truncate_of_whole {x : Exact} {z : Int} (h : x.toRat = z) : Reckoning.truncate x = z := by
  change (if 0 ≤ x.toRat then ⌊x.toRat⌋ else ⌈x.toRat⌉) = z
  rw [h, Int.floor_intCast, Int.ceil_intCast, ite_self]

theorem nearest_of_whole {x : Exact} {z : Int} (h : x.toRat = z) : Reckoning.nearest x = z := by
  change (if 0 ≤ x.toRat then ⌊x.toRat + 1 / 2⌋ else ⌈x.toRat - 1 / 2⌉) = z
  have hup : ⌊(z : Rat) + 1 / 2⌋ = z := by
    rw [Int.floor_eq_iff]
    constructor <;> linarith
  have hdown : ⌈(z : Rat) - 1 / 2⌉ = z := by
    rw [Int.ceil_eq_iff]
    constructor <;> linarith
  rw [h, hup, hdown, ite_self]

end Exact
end SampleStream
