import SampleStream.Proofs.Sample.Decode
import SampleStream.Sample.GuardedShorts
import SampleStream.Sample.Registry

/-!
# Tables in place of arithmetic

Looking a sample up in the table of a scalar gives the bytes that scaling its components
gives, for every word (`store_makeTable`). The two ways to convert therefore answer every
call alike, although they find the end of the room for their samples differently
(`roomBySize_single`), and go on alike after a change of the scalar. Which of them a
priority picks shows in no run of calls (`lookUp_answers_as_compute`).
-/

namespace SampleStream.Sample

/-! ## Entries of a table -/

theorem ascending_mod (count n : Nat) :
    ByteOrder.ascending count (n % 256 ^ count) = ByteOrder.ascending count n := by
  induction count generalizing n with
  | zero => rfl
  | succ count ih =>
    have hlow : UInt8.ofNat (n % 256 ^ (count + 1)) = UInt8.ofNat n := by
      apply UInt8.toNat_inj.mp
      simp only [UInt8.toNat_ofNat', Nat.reducePow]
      exact Nat.mod_mod_of_dvd n (Nat.dvd_mul_left 256 (256 ^ count))
    have hhigh : n % 256 ^ (count + 1) / 256 = n / 256 % 256 ^ count := by
      rw [Nat.pow_succ, Nat.mul_comm, Nat.mod_mul_right_div_self]
    rw [ByteOrder.ascending, hlow, hhigh, ih, ByteOrder.ascending]

/-- The bytes of a word that a number was cut to are the low bytes of the number. -/
theorem wordBytes_ofNat (n : Nat) :
    ByteOrder.little.wordBytes (UInt32.ofNat n) = ByteOrder.little.encode 4 n := by
  simpa [ByteOrder.wordBytes, ByteOrder.encode] using ascending_mod 4 n

/-- The bits of a scaled component in single precision. -/
def scaledBits (scalar : Float) (k : Nat) : UInt32 :=
  UInt32.ofNat (Real.narrow (Real.ofInt (Int16.ofNat k).toInt * scalar))

theorem wordBytes_scaledBits (scalar : Float) (k : Nat) :
    ByteOrder.little.wordBytes (scaledBits scalar k) =
      Precision.single.store (Real.ofInt (Int16.ofNat k).toInt * scalar) :=
  wordBytes_ofNat _

theorem getElem?_makeTable (scalar : Float) {k : Nat} (hk : k < 2 ^ 16) :
    (makeTable scalar)[k]? = some (scaledBits scalar k) := by
  have hsize : k < (makeTable scalar).size := by simpa [makeTable] using hk
  rw [Array.getElem?_eq_getElem hsize]
  simp only [makeTable, Array.getElem_ofFn, scaledBits]

theorem getD_makeTable (scalar : Float) {k : Nat} (hk : k < 2 ^ 16) :
    (makeTable scalar).getD k 0 = scaledBits scalar k := by
  rw [Array.getD_eq_getD_getElem?, getElem?_makeTable scalar hk, Option.getD_some]

theorem entry_makeTable (scalar : Float) {k : Nat} (hk : k < 2 ^ 16) :
    (makeTable scalar).entry k = .ok (scaledBits scalar k) := by
  rw [Table.entry, getElem?_makeTable scalar hk]

/-- Each half of a word is the bits of a component. -/
theorem halves_lt (w : UInt32) : w.toNat / 2 ^ 16 < 2 ^ 16 ∧ w.toNat % 2 ^ 16 < 2 ^ 16 := by
  have hw := w.toNat_lt
  omega

/-- A sample looked up is the sample scaled. -/
theorem store_makeTable (scalar : Float) (w : UInt32) :
    (makeTable scalar).store w = Precision.single.storeSample ((splitWord w).scaled scalar) := by
  obtain ⟨hi, hq⟩ := halves_lt w
  simp only [Table.store, getD_makeTable scalar hi, getD_makeTable scalar hq,
    wordBytes_scaledBits, Precision.storeSample, IQ.scaled, IQ.map, splitWord]

/-- Both halves of a word have an entry in a table that was made. -/
theorem storeGuarded_makeTable (scalar : Float) (w : UInt32) :
    (makeTable scalar).storeGuarded w = .ok ((makeTable scalar).store w) := by
  obtain ⟨hi, hq⟩ := halves_lt w
  simp only [Table.storeGuarded, entry_makeTable scalar hi, entry_makeTable scalar hq,
    Guarded.ok_bind, Table.store, getD_makeTable scalar hi, getD_makeTable scalar hq]
  rfl

namespace Converter

/-! ## Room -/

section Room
variable {α : Type}

theorem mulSize_then (a b : Nat) (k : Nat → Guarded α) :
    (Guarded.bounded (mulSize a b) >>= k) =
      if a * b < sizeLimit then k (a * b) else .error .bounds := by
  rw [mulSize, fitSize]
  split <;> rfl

theorem addSize_then (a b : Nat) (k : Nat → Guarded α) :
    (Guarded.bounded (addSize a b) >>= k) =
      if a + b < sizeLimit then k (a + b) else .error .bounds := by
  rw [addSize, fitSize]
  split <;> rfl

theorem upTo_eq (data : Bytes) (start stop : Nat) :
    upTo data start stop =
      if start ≤ stop ∧ stop ≤ data.length then .ok ((data.drop start).take (stop - start))
      else .error .bounds := by
  rw [upTo, Guarded.difference]
  by_cases hle : start ≤ stop
  · have hend : start + (stop - start) = stop := by omega
    rw [if_pos hle, Guarded.ok_bind, slice, hend]
    by_cases hstop : stop ≤ data.length
    · rw [if_pos hstop, if_pos ⟨hle, hstop⟩, Guarded.bounded_some]
    · rw [if_neg hstop, if_neg fun h => hstop h.2, Guarded.bounded_none]
  · rw [if_neg hle, if_neg fun h => hle h.1, Guarded.error_bind]

theorem upTo_then (data : Bytes) (start stop : Nat) (k : Bytes → Guarded α) :
    (upTo data start stop >>= k) =
      if start ≤ stop ∧ stop ≤ data.length then k ((data.drop start).take (stop - start))
      else .error .bounds := by
  rw [upTo_eq]
  split <;> rfl

end Room

/-- The end of the room for single-precision samples is the same by size and by position,
and out of range for the same runs. -/
theorem Place.roomBySize_single (p : Place) (count : Nat) :
    p.roomBySize .single count = p.roomByPosition count := by
  simp only [roomBySize, roomByPosition, Precision.bytes, mulSize_then, addSize_then, upTo_then,
    sizeLimit]
  have hstart : p.start * 4 * 2 = p.start * 8 := by omega
  have hstop : p.start * 4 * 2 + count * 4 * 2 = (p.start + count) * 8 := by omega
  rw [hstop, hstart]
  grind

theorem Place.items_then {α : Type} (p : Place) (size count : Nat) (k : Bytes → Guarded α) :
    (Guarded.bounded (p.items size count) >>= k) =
      if p.start * size < sizeLimit ∧ count * size < sizeLimit ∧
          p.start * size + count * size ≤ p.buffer.length then
        k ((p.buffer.drop (p.start * size)).take (count * size))
      else .error .bounds := by
  split
  · rename_i hroom
    obtain ⟨hstart, hlength, hfits⟩ := hroom
    rw [Place.items_eq_some_iff.mpr ⟨hstart, hlength, hfits, rfl⟩, Guarded.bounded_some,
      Guarded.ok_bind]
  · rename_i hroom
    cases hitems : p.items size count with
    | none => rfl
    | some items =>
      obtain ⟨hstart, hlength, hfits, -⟩ := Place.items_eq_some_iff.mp hitems
      exact absurd ⟨hstart, hlength, hfits⟩ hroom

/-- In a buffer whose length is a size, the wire words of a run are its items. -/
theorem Place.words_eq {p : Place} (hp : p.buffer.length < sizeLimit) (count : Nat) :
    p.words count = Guarded.bounded (p.items 4 count) := by
  have hlength : p.start * 4 + count * 4 - p.start * 4 = count * 4 := by omega
  have hok (items : Bytes) : (pure items : Guarded Bytes) = .ok items := rfl
  rw [← bind_pure (Guarded.bounded (p.items 4 count)), items_then]
  simp only [words, mulSize_then, addSize_then, upTo_eq, hlength, hok]
  grind

/-- The room for single-precision samples is that of as many items. -/
theorem Place.roomByPosition_eq {p : Place} (hp : p.buffer.length < sizeLimit) (count : Nat) :
    p.roomByPosition count =
      (Guarded.bounded (p.items 8 count) >>= fun _ => pure (p.start * 8)) := by
  have hstop : (p.start + count) * 8 = p.start * 8 + count * 8 := by omega
  simp only [roomByPosition, mulSize_then, addSize_then, upTo_then, hstop, items_then,
    sizeLimit] at hp ⊢
  grind

/-! ## Calls -/

variable (order : ByteOrder) (scalar : Float)

/-- With the table of a scalar, looking up does what scaling does. -/
theorem lookUpGuarded_makeTable (source target : Place) (count : Nat) :
    lookUpGuarded order (makeTable scalar) source target count =
      unpackShortsGuarded order .single scalar source target count := by
  have hsamples (items : Bytes) :
      ((chunks 4 count items).mapM fun bytes =>
          (makeTable scalar).storeGuarded (order.word bytes)) =
        .ok ((chunks 4 count items).map fun bytes =>
          Precision.single.storeSample ((splitWord (order.word bytes)).scaled scalar)) := by
    simp only [storeGuarded_makeTable, store_makeTable]
    exact List.mapM_pure
  simp only [lookUpGuarded, unpackShortsGuarded, Place.roomBySize_single, hsamples,
    Guarded.ok_bind, List.flatMap_def]

theorem get_mk (f : Unit → Table) : (Thunk.mk f).get = f () := rfl

/-- Looking up in the table of a scalar answers as scaling does. -/
theorem convert_ofTable :
    (ofTable order scalar).convert =
      (.scaled (.unpackShorts order (.real .single)) scalar : Converter).convert := by
  funext source target count
  rw [ofTable, convert, convert, get_mk]
  simp only [store_makeTable]
  rfl

theorem convertStepwise_ofTable :
    (ofTable order scalar).convertStepwise =
      (.scaled (.unpackShorts order (.real .single)) scalar : Converter).convertStepwise := by
  funext source target count
  rw [ofTable, convertStepwise, convertStepwise, get_mk, lookUpGuarded_makeTable]

/-- In buffers whose lengths are sizes, the checks of the single steps are those of the
two slices. -/
theorem convertStepwise_eq {source target : Place} (hsource : source.buffer.length < sizeLimit)
    (htarget : target.buffer.length < sizeLimit) (count : Nat) :
    (ofTable order scalar).convertStepwise source target count =
      Guarded.bounded ((ofTable order scalar).convert source target count) := by
  rw [convertStepwise_ofTable, convert_ofTable, convertStepwise, convert, unpackShortsGuarded,
    Place.words_eq hsource, Place.roomBySize_single, Place.roomByPosition_eq htarget, eachItem]
  refine Guarded.bounded_bind fun items _ => ?_
  rw [bind_assoc]
  exact Guarded.bounded_bind fun _ _ => rfl

/-! ## Uses one after the other -/

/-- What a converter is used for. -/
inductive Use where
  /-- Another scaling factor. -/
  | scale (scalar : Float)
  /-- A conversion. -/
  | convert (source target : Place) (count : Nat)

/-- What `call` answers to the conversions among the uses of a converter. -/
def answersBy {α : Type} (call : Converter → Place → Place → Nat → α) :
    Converter → List Use → List α
  | _, [] => []
  | c, .scale scalar :: rest => answersBy call (c.setScalar scalar) rest
  | c, .convert source target count :: rest =>
    call c source target count :: answersBy call c rest

theorem setScalar_ofTable (next : Float) :
    (ofTable order scalar).setScalar next = ofTable order next := rfl

/-- Calls that answer alike under each scalar do so along all uses. -/
theorem answersBy_ofTable {α : Type} {call : Converter → Place → Place → Nat → α}
    (hcall : ∀ scalar, call (ofTable order scalar) =
      call (.scaled (.unpackShorts order (.real .single)) scalar)) (uses : List Use) :
    answersBy call (ofTable order scalar) uses =
      answersBy call (.scaled (.unpackShorts order (.real .single)) scalar) uses := by
  induction uses generalizing scalar with
  | nil => rfl
  | cons use rest ih =>
    cases use with
    | scale next =>
      rw [answersBy, answersBy, setScalar_ofTable]
      exact ih next
    | convert source target count => rw [answersBy, answersBy, hcall scalar, ih scalar]

/-! ## Either priority -/

/-- What is registered from 16-bit wire samples to single precision. -/
theorem entries_toSingle :
    standardRegistry.entries (.single (wireTag "sc16" order) "fc32") =
      [(generalPriority, .compute (.unpackShorts order (.real .single))),
        (tablePriority, .lookUp order)] := by
  cases order <;> rfl

/-- A priority picks the table or the computation, and without one the table is picked.
New converters of the two give the same answers, along all uses: the same buffers, and
none for the same calls. -/
theorem lookUp_answers_as_compute (uses : List Use) :
    standardRegistry.find (.single (wireTag "sc16" order) "fc32") none = .ok (.lookUp order) ∧
    standardRegistry.find (.single (wireTag "sc16" order) "fc32") (some tablePriority) =
      .ok (.lookUp order) ∧
    standardRegistry.find (.single (wireTag "sc16" order) "fc32") (some generalPriority) =
      .ok (.compute (.unpackShorts order (.real .single))) ∧
    answersBy convertStepwise (start (.lookUp order)) uses =
      answersBy convertStepwise (start (.compute (.unpackShorts order (.real .single)))) uses ∧
    answersBy convert (start (.lookUp order)) uses =
      answersBy convert (start (.compute (.unpackShorts order (.real .single)))) uses := by
  refine ⟨?_, ?_, ?_, ?_, ?_⟩
  · rw [Registry.find, entries_toSingle]
    rfl
  · rw [Registry.find, entries_toSingle]
    rfl
  · rw [Registry.find, entries_toSingle]
    rfl
  · exact answersBy_ofTable order _ (convertStepwise_ofTable order) uses
  · exact answersBy_ofTable order _ (convert_ofTable order) uses

end Converter
end SampleStream.Sample
