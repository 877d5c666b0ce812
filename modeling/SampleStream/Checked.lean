/-!
# Checked arithmetic and slices

Lengths, offsets and counts are natural numbers below `2 ^ 64`; whole seconds
and ticks are integers in `[-2 ^ 63, 2 ^ 63)`. A computation that leaves its
range, or reads or writes outside a buffer, has no value: it yields `none`
rather than a wrapped number, so that no later step can go on with one.
-/

/-! ## Numbers -/

-- a power and the zero of a sum are the ones of the numbers themselves, also in a module
-- that sees the ones of monoids
attribute [instance (high)] instPowNat Zero.ofOfNat0
attribute [default_instance high] instPowNat

namespace SampleStream

/-- A value, or nothing when the computation left its number range or a
buffer. Domain errors are kept apart from this: they are values of their own. -/
abbrev Checked (α : Type) := Option α

/-! ## Sizes -/

/-- Every size is below this. -/
def sizeLimit : Nat := 2 ^ 64

/-- A natural number that is a size. -/
def fitSize (n : Nat) : Checked Nat :=
  if n < sizeLimit then some n else none

/-- The sum of two sizes. -/
def addSize (a b : Nat) : Checked Nat := fitSize (a + b)

/-- The product of two sizes. -/
def mulSize (a b : Nat) : Checked Nat := fitSize (a * b)

theorem fitSize_eq_some {n m : Nat} : fitSize n = some m ↔ n < sizeLimit ∧ n = m := by
  simp [fitSize]

theorem addSize_eq_some {a b m : Nat} :
    addSize a b = some m ↔ a + b < sizeLimit ∧ a + b = m := fitSize_eq_some

theorem mulSize_eq_some {a b m : Nat} :
    mulSize a b = some m ↔ a * b < sizeLimit ∧ a * b = m := fitSize_eq_some

/-- No storage has this many bytes. -/
def storageLimit : Nat := 2 ^ 63

/-- A byte count that storage can be found for. -/
def fitStorage (n : Nat) : Checked Nat :=
  if n < storageLimit then some n else none

/-! ## Signed counts -/

/-- Signed counts lie in `[-signedLimit, signedLimit)`. -/
def signedLimit : Int := 2 ^ 63

/-- An integer that is a signed count. -/
def fitSigned (z : Int) : Checked Int :=
  if -signedLimit ≤ z ∧ z < signedLimit then some z else none

/-! ## Slices -/

variable {α : Type}

/-- The `len` elements of `xs` from position `start` on, when all of them
lie inside. -/
def slice (xs : List α) (start len : Nat) : Checked (List α) :=
  if start + len ≤ xs.length then some ((xs.drop start).take len) else none

/-- `xs` with the elements from `start` on replaced by `new`. -/
def splice (xs : List α) (start : Nat) (new : List α) : List α :=
  xs.take start ++ new ++ xs.drop (start + new.length)

theorem slice_eq_some {xs ys : List α} {start len : Nat} :
    slice xs start len = some ys ↔
      start + len ≤ xs.length ∧ (xs.drop start).take len = ys := by
  simp [slice]

theorem length_of_slice {xs ys : List α} {start len : Nat}
    (h : slice xs start len = some ys) : ys.length = len := by
  obtain ⟨hle, rfl⟩ := slice_eq_some.mp h
  simp
  omega

theorem length_splice {xs new : List α} {start : Nat}
    (h : start + new.length ≤ xs.length) : (splice xs start new).length = xs.length := by
  simp [splice]
  omega

/-! ## Chunks -/

/-- The first `count` pieces of `size` elements each, in order. Pieces past
the end of `xs` are cut short or empty. -/
def chunks (size : Nat) : Nat → List α → List (List α) :=
  fun count xs => go count xs #[]
where
  /-- Collects the pieces in `done`, so that long lists need no deep recursion. -/
  go : Nat → List α → Array (List α) → List (List α)
    | 0, _, done => done.toList
    | count + 1, xs, done => go count (xs.drop size) (done.push (xs.take size))

theorem chunks.go_eq (size count : Nat) (xs : List α) (done : Array (List α)) :
    chunks.go size count xs done = done.toList ++ chunks.go size count xs #[] := by
  induction count generalizing xs done with
  | zero => simp [chunks.go]
  | succ count ih =>
    rw [chunks.go, ih, chunks.go, ih (xs.drop size) (#[].push (xs.take size))]
    simp

@[simp] theorem chunks_zero (size : Nat) (xs : List α) : chunks size 0 xs = [] := rfl

@[simp] theorem chunks_succ (size count : Nat) (xs : List α) :
    chunks size (count + 1) xs = xs.take size :: chunks size count (xs.drop size) := by
  rw [chunks, chunks.go, chunks.go_eq]
  rfl

@[simp] theorem length_chunks (size count : Nat) (xs : List α) :
    (chunks size count xs).length = count := by
  induction count generalizing xs with
  | zero => rfl
  | succ count ih => simp [ih]

end SampleStream
