/-!
# Blank characters

White space as the Unicode property of that name defines it: twenty-five
characters, not only those of ASCII. Main statements: what `trim` leaves neither
begins nor ends with one (`isBlank_of_head?_trim`, `isBlank_of_getLast?_trim`).
-/

namespace SampleStream.Text

/-- Whether a character is white space. -/
def isBlank (c : Char) : Bool :=
  let n := c.toNat
  (9 ≤ n && n ≤ 13) || n == 0x20 || n == 0x85 || n == 0xa0 || n == 0x1680 ||
    (0x2000 ≤ n && n ≤ 0x200a) || n == 0x2028 || n == 0x2029 || n == 0x202f ||
    n == 0x205f || n == 0x3000

/-- `cs` without the blanks at its start and end. -/
def trim (cs : List Char) : List Char :=
  ((cs.dropWhile isBlank).reverse.dropWhile isBlank).reverse

/-- The pieces of `cs` between the characters `sep`; one more than there are
separators. -/
def split (sep : Char) : List Char → List (List Char)
  | [] => [[]]
  | c :: rest =>
    if c = sep then [] :: split sep rest
    else match split sep rest with
      | [] => [[c]]
      | piece :: pieces => (c :: piece) :: pieces

/-- The parts of `cs` before and after its first `sep`. -/
def cut? (sep : Char) (cs : List Char) : Option (List Char × List Char) :=
  if sep ∈ cs then
    some (cs.takeWhile (· ≠ sep), (cs.dropWhile (· ≠ sep)).drop 1)
  else none

theorem isBlank_of_isWhitespace {c : Char} (h : c.isWhitespace = true) : isBlank c = true := by
  simp only [Char.isWhitespace, Bool.or_eq_true, decide_eq_true_eq] at h
  rcases h with ((rfl | rfl) | rfl) | rfl <;> decide

theorem isBlank_of_head?_dropWhile {cs : List Char} {c : Char}
    (h : (cs.dropWhile isBlank).head? = some c) : isBlank c = false := by
  have kept := List.head?_dropWhile_not isBlank cs
  rw [h] at kept
  exact kept

theorem isBlank_of_getLast?_trim {cs : List Char} {c : Char}
    (h : (trim cs).getLast? = some c) : isBlank c = false := by
  rw [trim, List.getLast?_reverse] at h
  exact isBlank_of_head?_dropWhile h

theorem isBlank_of_head?_trim {cs : List Char} {c : Char}
    (h : (trim cs).head? = some c) : isBlank c = false := by
  rw [trim, List.head?_reverse] at h
  obtain ⟨dropped, hdropped⟩ :=
    (List.dropWhile_suffix isBlank : _ <:+ (cs.dropWhile isBlank).reverse)
  have first : (cs.dropWhile isBlank).head? = some c := by
    rw [← List.getLast?_reverse, ← hdropped, List.getLast?_append, h]
    rfl
  exact isBlank_of_head?_dropWhile first

end SampleStream.Text
