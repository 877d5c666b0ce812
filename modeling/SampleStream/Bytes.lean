import SampleStream.Checked

/-!
# Numbers as bytes

A number is laid out in a fixed count of bytes, least or most significant
first. Main statement: reading back what was laid out gives the number modulo
the range of the bytes (`ByteOrder.decode_encode`). Host samples are laid out
little endian; words on a link follow the byte order of the link.
-/

namespace SampleStream

/-- A sequence of bytes: a packet, a frame or a sample buffer. -/
abbrev Bytes := List UInt8

/-- Which byte of a word comes first. -/
inductive ByteOrder where
  | big
  | little
deriving DecidableEq, Repr, Inhabited

namespace ByteOrder

/-! ## Names -/

/-- The suffix that names the order in a format tag. -/
def suffix : ByteOrder → String
  | big => "be"
  | little => "le"

/-- The order that a suffix names. -/
def ofSuffix? (tag : String) : Option ByteOrder :=
  if tag = "be" then some big
  else if tag = "le" then some little
  else none

theorem ofSuffix?_suffix (order : ByteOrder) : ofSuffix? order.suffix = some order := by
  cases order <;> decide

/-! ## Layout -/

/-- The `count` low bytes of `n`, least significant first. -/
def ascending : Nat → Nat → Bytes
  | 0, _ => []
  | count + 1, n => UInt8.ofNat n :: ascending count (n / 256)

/-- The number whose bytes are given least significant first. -/
def ofAscending : Bytes → Nat
  | [] => 0
  | b :: rest => b.toNat + 256 * ofAscending rest

/-- The `count` low bytes of `n` in this order. -/
def encode (order : ByteOrder) (count n : Nat) : Bytes :=
  match order with
  | big => (ascending count n).reverse
  | little => ascending count n

/-- The number that `bytes` hold in this order. -/
def decode (order : ByteOrder) (bytes : Bytes) : Nat :=
  match order with
  | big => ofAscending bytes.reverse
  | little => ofAscending bytes

@[simp] theorem length_ascending (count n : Nat) : (ascending count n).length = count := by
  induction count generalizing n with
  | zero => rfl
  | succ count ih => simp [ascending, ih]

@[simp] theorem length_encode (order : ByteOrder) (count n : Nat) :
    (order.encode count n).length = count := by
  cases order <;> simp [encode]

theorem ofAscending_ascending (count n : Nat) :
    ofAscending (ascending count n) = n % 256 ^ count := by
  induction count generalizing n with
  | zero => simp [ascending, ofAscending, Nat.mod_one]
  | succ count ih =>
    rw [ascending, ofAscending, ih, Nat.pow_succ, Nat.mul_comm (256 ^ count), Nat.mod_mul]
    simp

theorem decode_encode (order : ByteOrder) (count n : Nat) :
    order.decode (order.encode count n) = n % 256 ^ count := by
  cases order <;> simp [encode, decode, ofAscending_ascending]

theorem ofAscending_lt (bytes : Bytes) : ofAscending bytes < 256 ^ bytes.length := by
  induction bytes with
  | nil => simp [ofAscending]
  | cons b rest ih =>
    have hb := b.toNat_lt
    simp only [ofAscending, List.length_cons, Nat.pow_succ]
    omega

theorem ascending_ofAscending (bytes : Bytes) :
    ascending bytes.length (ofAscending bytes) = bytes := by
  induction bytes with
  | nil => rfl
  | cons b rest ih =>
    have hb := b.toNat_lt
    have hdiv : (b.toNat + 256 * ofAscending rest) / 256 = ofAscending rest := by omega
    have hbyte : UInt8.ofNat (b.toNat + 256 * ofAscending rest) = b := by
      apply UInt8.toNat_inj.mp
      simp
    simp only [List.length_cons, ofAscending, ascending, hdiv, hbyte, ih]

theorem encode_decode (order : ByteOrder) (bytes : Bytes) :
    order.encode bytes.length (order.decode bytes) = bytes := by
  cases order with
  | big =>
    have h := ascending_ofAscending bytes.reverse
    rw [List.length_reverse] at h
    simp [encode, decode, h]
  | little => exact ascending_ofAscending bytes

/-! ## Words -/

/-- The four bytes of a word. -/
def wordBytes (order : ByteOrder) (w : UInt32) : Bytes :=
  order.encode 4 w.toNat

/-- The word at the head of `bytes`; bytes that are missing count as zero. -/
def word (order : ByteOrder) (bytes : Bytes) : UInt32 :=
  UInt32.ofNat (order.decode ((bytes ++ [0, 0, 0, 0]).take 4))

/-- The word with index `k` in `bytes`. -/
def wordAt (order : ByteOrder) (bytes : Bytes) (k : Nat) : UInt32 :=
  order.word (bytes.drop (4 * k))

/-- The bytes of a sequence of words. -/
def wordsBytes (order : ByteOrder) (ws : List UInt32) : Bytes :=
  ws.flatMap order.wordBytes

@[simp] theorem length_wordBytes (order : ByteOrder) (w : UInt32) :
    (order.wordBytes w).length = 4 := length_encode ..

theorem word_wordBytes (order : ByteOrder) (w : UInt32) (rest : Bytes) :
    order.word (order.wordBytes w ++ rest) = w := by
  have htake : ((order.wordBytes w ++ rest) ++ [0, 0, 0, 0]).take 4 = order.wordBytes w := by
    rw [List.append_assoc, List.take_append_of_le_length (by simp)]
    exact List.take_of_length_le (by simp)
  rw [word, htake, wordBytes, decode_encode]
  apply UInt32.toNat_inj.mp
  simp

@[simp] theorem length_wordsBytes (order : ByteOrder) (ws : List UInt32) :
    (order.wordsBytes ws).length = 4 * ws.length := by
  induction ws with
  | nil => rfl
  | cons w ws ih =>
    simp only [wordsBytes, List.flatMap_cons, List.length_append, length_wordBytes,
      List.length_cons] at ih ⊢
    omega

theorem wordAt_wordsBytes (order : ByteOrder) (ws : List UInt32) (rest : Bytes) (k : Nat)
    (hk : k < ws.length) : order.wordAt (order.wordsBytes ws ++ rest) k = ws[k] := by
  induction ws generalizing k with
  | nil => simp at hk
  | cons w ws ih =>
    cases k with
    | zero =>
      simp only [wordsBytes, List.flatMap_cons, wordAt, Nat.mul_zero, List.drop_zero,
        List.append_assoc, word_wordBytes, List.getElem_cons_zero]
    | succ k =>
      have hdrop : (order.wordsBytes (w :: ws) ++ rest).drop (4 * (k + 1)) =
          (order.wordsBytes ws ++ rest).drop (4 * k) := by
        rw [show 4 * (k + 1) = (order.wordBytes w).length + 4 * k by simp; omega]
        simp only [wordsBytes, List.flatMap_cons, List.append_assoc, List.drop_length_add_append]
      rw [wordAt, hdrop, List.getElem_cons_succ]
      exact ih k (by simpa using hk)

end ByteOrder
end SampleStream
