/-!
# Rounded quotients

The two ways in which a quotient of natural numbers is rounded to a whole
number here: ties to the even neighbour, as binary formats and decimal places
do, and ties away from zero, as ticks and samples do. Both lie within half a
unit of the exact quotient.
-/

namespace SampleStream

/-- The whole number nearest to `num / den`, a tie going to the even one. -/
def divHalfEven (num den : Nat) : Nat :=
  let quot := num / den
  let twice := 2 * (num % den)
  if twice < den then quot
  else if den < twice then quot + 1
  else quot + quot % 2

/-- The whole number nearest to `num / den`, a tie going to the larger one. -/
def divHalfUp (num den : Nat) : Nat := (2 * num + den) / (2 * den)

theorem divHalfEven_near (num den : Nat) (h : 0 < den) :
    2 * (divHalfEven num den * den) ≤ 2 * num + den ∧
      2 * num ≤ 2 * (divHalfEven num den * den) + den := by
  have split := Nat.div_add_mod num den
  have small := Nat.mod_lt num h
  simp only [divHalfEven]
  generalize num / den = quot at *
  generalize num % den = rest at *
  have comm : quot * den = den * quot := Nat.mul_comm ..
  have next : (quot + 1) * den = den * quot + den := by rw [Nat.add_mul, comm, Nat.one_mul]
  have parity : quot % 2 = 0 ∨ quot % 2 = 1 := by omega
  generalize den * quot = base at *
  split
  · omega
  · split
    · omega
    · rcases parity with even | odd
      · rw [even, Nat.add_zero]
        omega
      · rw [odd]
        omega

theorem divHalfUp_near (num den : Nat) (h : 0 < den) :
    2 * (divHalfUp num den * den) ≤ 2 * num + den ∧
      2 * num < 2 * (divHalfUp num den * den) + den := by
  have split := Nat.div_add_mod (2 * num + den) (2 * den)
  have small := Nat.mod_lt (2 * num + den) (show 0 < 2 * den by omega)
  rw [divHalfUp]
  generalize (2 * num + den) / (2 * den) = quot at *
  have comm : 2 * den * quot = 2 * (quot * den) := by
    rw [Nat.mul_assoc, Nat.mul_comm den]
  omega

end SampleStream
