import SampleStream.Checked

/-!
# Guarded computations

A guarded computation says why it has no value: because a slice, a subtraction or a
count left its range, or because a time did. `Guards` relates such a computation to a
plain one that leaves out the checks which never fail: both do the same, no slice,
subtraction or count leaves its range, and the values have a property that the next
part of the computation may rely on.
-/

namespace SampleStream

/-- Why a computation has no value. -/
inductive Fault where
  /-- A slice, a subtraction or a count left its range. -/
  | bounds
  /-- A time left its range. -/
  | time
deriving DecidableEq, Repr

/-- A value, or the fault that stopped the computation. -/
abbrev Guarded (α : Type) := Except Fault α

namespace Guarded
variable {α β : Type}

/-- A checked computation of which every failure is the given fault. -/
def ofChecked (fault : Fault) : Checked α → Guarded α
  | none => .error fault
  | some a => .ok a

/-- A checked computation on slices, differences and counts. -/
def bounded (x : Checked α) : Guarded α := ofChecked .bounds x

/-- A checked computation with times. -/
def timed (x : Checked α) : Guarded α := ofChecked .time x

/-- The difference of two sizes. -/
def difference (a b : Nat) : Guarded Nat :=
  if b ≤ a then .ok (a - b) else .error .bounds

/-- The whole part of a quotient. -/
def quotient (a b : Nat) : Guarded Nat :=
  if b = 0 then .error .bounds else .ok (a / b)

@[simp] theorem bounded_some (a : α) : bounded (some a) = .ok a := rfl

@[simp] theorem timed_some (a : α) : timed (some a) = .ok a := rfl

@[simp] theorem bounded_none : bounded (none : Checked α) = .error .bounds := rfl

theorem ok_bind (a : α) (k : α → Guarded β) : (Except.ok a >>= k) = k a := rfl

theorem error_bind (fault : Fault) (k : α → Guarded β) : (Except.error fault >>= k) = .error fault :=
  rfl

/-- Checked parts one after the other are one checked computation. -/
theorem bounded_bind {x : Checked α} {f : α → Checked β} {k : α → Guarded β}
    (hk : ∀ a, x = some a → k a = bounded (f a)) : (bounded x >>= k) = bounded (x >>= f) := by
  cases x with
  | none => rfl
  | some a => exact hk a rfl

theorem difference_of_le {a b : Nat} (h : b ≤ a) : difference a b = .ok (a - b) := if_pos h

theorem quotient_of_pos {a b : Nat} (h : 0 < b) : quotient a b = .ok (a / b) :=
  if_neg (by omega)

theorem bounded_addSize {a b : Nat} (h : a + b < sizeLimit) :
    bounded (addSize a b) = .ok (a + b) := by
  rw [addSize_eq_some.mpr ⟨h, rfl⟩, bounded_some]

theorem bounded_mulSize {a b : Nat} (h : a * b < sizeLimit) :
    bounded (mulSize a b) = .ok (a * b) := by
  rw [mulSize_eq_some.mpr ⟨h, rfl⟩, bounded_some]

theorem bounded_slice {xs : List α} {start len : Nat} (h : start + len ≤ xs.length) :
    bounded (slice xs start len) = .ok ((xs.drop start).take len) := by
  rw [slice_eq_some.mpr ⟨h, rfl⟩, bounded_some]

/-- Only times stop a computation in time. -/
theorem timed_ne_bounds (x : Checked α) : timed x ≠ .error .bounds := by
  cases x with
  | none => exact nofun
  | some a => exact nofun

/-! ## Plain computations -/

/-- `g` does what `x` does, faults for times only, and has values with `P`. -/
structure Guards (g : Guarded α) (x : Checked α) (P : α → Prop) : Prop where
  same : g = timed x
  value : ∀ a, x = some a → P a

namespace Guards
variable {g : Guarded α} {x : Checked α} {P P' : α → Prop} {Q : β → Prop}

theorem pure {a : α} (h : P a) : Guards (Pure.pure a) (Pure.pure a) P where
  same := rfl
  value b hb := by
    cases hb
    exact h

theorem bind {k : α → Guarded β} {f : α → Checked β} (h : Guards g x P)
    (hk : ∀ a, P a → Guards (k a) (f a) Q) : Guards (g >>= k) (x >>= f) Q := by
  obtain ⟨rfl, hvalue⟩ := h
  cases x with
  | none => exact ⟨rfl, nofun⟩
  | some a => exact hk a (hvalue a rfl)

/-- Part of a computation with times. -/
theorem timed_bind {k : α → Guarded β} {f : α → Checked β}
    (hk : ∀ a, x = some a → Guards (k a) (f a) Q) : Guards (timed x >>= k) (x >>= f) Q := by
  cases x with
  | none => exact ⟨rfl, nofun⟩
  | some a => exact hk a rfl

/-- Part of a computation that has a value. -/
theorem ok_bind {a : α} {k : α → Guarded β} {f : α → Checked β} (hx : x = some a)
    (hg : g = .ok a) (hk : Guards (k a) (f a) Q) : Guards (g >>= k) (x >>= f) Q := by
  subst hx hg
  exact hk

/-- A check that the plain computation leaves out. -/
theorem check {a : α} {k : α → Guarded β} {y : Checked β} (hg : g = .ok a)
    (hk : Guards (k a) y Q) : Guards (g >>= k) y Q := by
  subst hg
  exact hk

end Guards
end Guarded
end SampleStream
