import SampleStream.Proofs.Sample.Decode

/-!
# What goes to the wire

A converter writes over the buffer it is given and keeps its size
(`length_convert`). With 16-bit integers on both sides every sample becomes the word
that holds it, and the word is read back as the same four bytes
(`sampleAt_of_convert`).
-/

namespace SampleStream.Sample

/-! ## One sample -/

theorem splitWord_joinWord (s : IQ Int16) : splitWord (joinWord s) = s := by
  have hi := s.i.toUInt16.toNat_lt
  have hq := s.q.toUInt16.toNat_lt
  have hword : (joinWord s).toNat = s.i.toUInt16.toNat * 2 ^ 16 + s.q.toUInt16.toNat := by
    rw [joinWord, UInt32.toNat_ofNat']
    omega
  have hupper : (joinWord s).toNat / 2 ^ 16 = s.i.toUInt16.toNat := by omega
  have hlower : (joinWord s).toNat % 2 ^ 16 = s.q.toUInt16.toNat := by omega
  have hback (x : Int16) : Int16.ofNat x.toUInt16.toNat = x := by
    apply Int16.toBitVec_inj.mp
    simp
  rw [splitWord, hupper, hlower, hback, hback]

theorem storeShorts_loadShorts {bytes : Bytes} (hlength : bytes.length = 4) :
    storeShorts (loadShorts bytes) = bytes := by
  have hback {part : Bytes} (hpart : part.length = 2) :
      ByteOrder.little.encode 2
        (Int16.ofNat (ByteOrder.little.decode part)).toUInt16.toNat = part := by
    have hlt : ByteOrder.little.decode part < 2 ^ 16 := by
      have := ByteOrder.ofAscending_lt part
      rw [hpart] at this
      exact this
    have hnat : (Int16.ofNat (ByteOrder.little.decode part)).toUInt16.toNat =
        ByteOrder.little.decode part := by
      simp
      omega
    have hencode := ByteOrder.little.encode_decode part
    rwa [hpart, ← hnat] at hencode
  have hfront : (bytes.take 2).length = 2 := by simp [hlength]
  have hback' : ((bytes.drop 2).take 2).length = 2 := by simp [hlength]
  have hrest : (bytes.drop 2).take 2 = bytes.drop 2 :=
    List.take_of_length_le (by simp [hlength])
  rw [storeShorts, loadShorts, hback hfront, hback hback', hrest, List.take_append_drop]

/-! ## Sizes -/

namespace Packed

theorem length_patch (order : ByteOrder) (block : Bytes) (given : List (Option (IQ Int16)))
    (hblock : block.length ≤ Block.bytes) : (patch order block given).length = block.length := by
  rw [Block.bytes] at hblock
  simp only [patch, List.length_append, List.length_take, List.length_drop, Block.length_write,
    Block.bytes]
  omega

theorem length_flatten_patched (order : ByteOrder) (count : Nat) (data : Bytes)
    {given : List (List (Option (IQ Int16)))} (hgiven : given.length = count) :
    (List.zipWith (patch order) (chunks Block.bytes count data) given).flatten.length =
      min (count * Block.bytes) data.length := by
  induction count generalizing data given with
  | zero => simp
  | succ count ih =>
    obtain ⟨first, rest, rfl⟩ := List.exists_cons_of_length_eq_add_one hgiven
    rw [chunks_succ, List.zipWith_cons_cons, List.flatten_cons, List.length_append,
      length_patch order _ first (List.length_take_le ..), ih _ (Nat.succ.inj hgiven),
      List.length_take, List.length_drop, Nat.add_mul]
    omega

theorem length_write {order : ByteOrder} {data out : Bytes} {start : Nat}
    {samples : List (IQ Int16)} (h : write order data start samples = some out) :
    out.length = data.length := by
  unfold write at h
  dsimp only at h
  split at h
  · cases h
    simp only [List.length_append, List.length_take, List.length_drop]
    rw [length_flatten_patched order _ _ (by simp), List.length_drop]
    omega
  · cases h

end Packed

namespace Converter

theorem length_store {target : Place} {size count : Nat} {items new : Bytes}
    (hroom : target.items size count = some items) (hnew : new.length = count * size) :
    (target.store size new).length = target.buffer.length := by
  obtain ⟨-, -, hle, -⟩ := Place.items_eq_some_iff.mp hroom
  exact length_splice (hnew ▸ hle)

theorem length_eachItem {inSize outSize : Nat} {f : Bytes → Bytes} {source target : Place}
    {count : Nat} {out : Bytes} (hf : ∀ bytes, (f bytes).length = outSize)
    (h : eachItem inSize outSize f source target count = some out) :
    out.length = target.buffer.length := by
  simp only [eachItem, Option.bind_eq_bind, Option.bind_eq_some_iff, Option.pure_def,
    Option.some.injEq] at h
  obtain ⟨items, -, room, hroom, rfl⟩ := h
  exact length_store hroom (by rw [length_flatMap_of_const fun bytes _ => hf bytes, length_chunks])

/-- Converting keeps the size of the buffer. -/
theorem length_convert {c : Converter} {source target : Place} {count : Nat} {out : Bytes}
    (h : c.convert source target count = some out) : out.length = target.buffer.length := by
  cases c with
  | tabled order table => exact length_eachItem (fun _ => table.get.length_store _) h
  | scaled routine scalar =>
    cases routine with
    | unpackShorts order host => exact length_eachItem (fun _ => host.length_store _ _) h
    | packShorts order host => exact length_eachItem (fun _ => order.length_wordBytes _) h
    | unpackBlocks order p =>
      simp only [convert, unpackRun] at h
      split at h
      · cases h
        rfl
      · simp only [Option.bind_eq_bind, Option.bind_eq_some_iff, Option.pure_def,
          Option.some.injEq] at h
        obtain ⟨room, hroom, lanes, hlanes, rfl⟩ := h
        refine length_store hroom ?_
        rw [length_flatMap_of_const fun _ _ => p.length_storeSample _, Packed.read_eq_map hlanes,
          List.length_map, List.length_range]
    | packBlocks order p =>
      simp only [convert, packRun] at h
      split at h
      · cases h
        rfl
      · simp only [Option.bind_eq_bind, Option.bind_eq_some_iff] at h
        obtain ⟨items, -, h⟩ := h
        exact Packed.length_write h

/-! ## Integers on both sides -/

/-- The bytes of the sample with index `k` in a buffer of 16-bit samples. -/
def shortsAt (buffer : Bytes) (k : Nat) : Bytes := (buffer.drop (k * 4)).take 4

/-- What a sample is read back as after it was written to the wire. -/
theorem sampleAt_of_convert {order : ByteOrder} {scalar scalar' : Float} {buffer payload : Bytes}
    {start count k : Nat}
    (h : (Converter.scaled (.packShorts order .shorts) scalar).convert ⟨buffer, start⟩
      ⟨List.replicate (4 * count) 0, 0⟩ count = some payload) (hk : k < count) :
    (Converter.scaled (.unpackShorts order .shorts) scalar').sampleAt payload k =
      shortsAt buffer (start + k) := by
  have hroom : (start + count) * 4 ≤ buffer.length := by
    simp only [convert, eachItem, Option.bind_eq_bind, Option.bind_eq_some_iff,
      HostFormat.bytes] at h
    obtain ⟨items, hitems, -⟩ := h
    obtain ⟨-, -, hroom, -⟩ := Place.items_eq_some_iff.mp hitems
    rwa [Nat.add_mul]
  -- nothing was in the payload before but room for the words
  have hpayload := eachItem_eq_splice
    (fun j => order.wordBytes (joinWord (loadShorts (shortsAt buffer j)))) (fun _ => rfl) h
  have hwords : payload = order.wordsBytes ((List.range count).map fun j =>
      joinWord (loadShorts (shortsAt buffer (start + j)))) := by
    rw [hpayload, splice, Nat.zero_mul, List.take_zero, List.nil_append, ByteOrder.wordsBytes,
      List.flatMap_map, List.drop_eq_nil_of_le, List.append_nil]
    rw [length_flatMap_of_const fun _ _ => order.length_wordBytes _]
    simp
    omega
  have hword := order.wordAt_wordsBytes ((List.range count).map fun j =>
    joinWord (loadShorts (shortsAt buffer (start + j)))) [] k (by simpa using hk)
  rw [List.append_nil, ← hwords] at hword
  rw [sampleAt, hword, HostFormat.store, List.getElem_map, List.getElem_range, splitWord_joinWord,
    storeShorts_loadShorts]
  simp [shortsAt]
  omega

end Converter
end SampleStream.Sample
