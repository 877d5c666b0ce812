import SampleStream.Proofs.Sample.Encode

/-!
# Packed samples there and back

What is packed into new words is read back sample by sample, as the twelve low bits
of each component in the upper part of a lane (`laneAt_write`). The words may stop in
the middle of a block: a lane reads no word that its three bytes do not reach
(`unpack_congr`). Words that are rounded up can hold one sample more than was packed,
which is read as zero.
-/

namespace SampleStream.Sample

/-! ## Blocks -/

namespace Block

/-- The words of a block hold its components one after the other. -/
theorem unpack_pack (samples : Lanes) :
    unpack (pack samples) = samples.map (IQ.map (lane ∘ field)) := by
  -- two components are cut at the end of a word and put together again
  have hsplit (x : BitVec 12) : x.extractLsb' 4 8 ++ x.extractLsb' 0 4 = x := by
    rw [BitVec.extractLsb'_append_extractLsb'_eq_extractLsb' (by decide : 4 = 0 + 4),
      BitVec.extractLsb'_eq_self]
  have hsplit' (x : BitVec 12) : x.extractLsb' 8 4 ++ x.extractLsb' 0 8 = x := by
    rw [BitVec.extractLsb'_append_extractLsb'_eq_extractLsb' (by decide : 8 = 0 + 8),
      BitVec.extractLsb'_eq_self]
  apply Vector.ext
  intro k hk
  simp (disch := decide) only [unpack, pack, Vector.getElem_map, Vector.getElem_mk,
    List.getElem_toArray, List.getElem_cons_zero, List.getElem_cons_succ,
    BitVec.extractLsb'_append_eq_of_le, BitVec.extractLsb'_append_eq_of_add_le, Nat.reduceSub,
    BitVec.extractLsb'_eq_self, hsplit, hsplit']
  rcases (by omega : k = 0 ∨ k = 1 ∨ k = 2 ∨ k = 3) with rfl | rfl | rfl | rfl
  · rfl
  · rfl
  · rfl
  · rfl

/-- A lane depends on the words that begin before its three bytes end. -/
theorem unpack_congr {a b : Words} {k : Nat} (hk : k < 4)
    (h : ∀ (j : Nat) (hj : j < 3), 4 * j < 3 * (k + 1) → a[j] = b[j]) :
    (unpack a)[k] = (unpack b)[k] := by
  have hfirst : a[0] = b[0] := h 0 (by decide) (by omega)
  have hsecond (hreach : 1 ≤ k) : a[1] = b[1] := h 1 (by decide) (by omega)
  have hthird (hreach : 2 ≤ k) : a[2] = b[2] := h 2 (by decide) (by omega)
  rcases (by omega : k = 0 ∨ k = 1 ∨ k = 2 ∨ k = 3) with rfl | rfl | rfl | rfl
  · simp [unpack, hfirst]
  · simp [unpack, hfirst, hsecond]
  · simp [unpack, hsecond, hthird]
  · simp [unpack, hthird]

theorem getElem_read (order : ByteOrder) (data : Bytes) {j : Nat} (hj : j < 3) :
    (read order data)[j] = order.wordAt data j := by
  rcases (by omega : j = 0 ∨ j = 1 ∨ j = 2) with rfl | rfl | rfl
  · rfl
  · rfl
  · rfl

theorem wordAt_write (order : ByteOrder) (words : Words) {j : Nat} (hj : j < 3) :
    order.wordAt (write order words) j = words[j] := by
  have hread := read_write order words []
  rw [List.append_nil] at hread
  rw [← getElem_read order _ hj, hread]

/-- The words that lie in the front of a block are read of it, whatever comes behind. -/
theorem wordAt_take_write {order : ByteOrder} {words : Words} {rest : Bytes} {j n : Nat}
    (hj : j < 3) (hreach : 4 * (j + 1) ≤ n) (hn : n ≤ bytes) :
    order.wordAt ((write order words).take n ++ rest) j = words[j] := by
  have hlength : ((write order words).take n).length = n := by
    rw [List.length_take, length_write, Nat.min_eq_left hn]
  rw [← order.wordAt_take _ hreach, List.take_left' hlength, order.wordAt_take _ hreach,
    wordAt_write order _ hj]

end Block

/-! ## Patched blocks -/

namespace Packed

variable {order : ByteOrder} {k : Nat}

theorem laneAt_of_lt (data : Bytes) (hk : k < 4) :
    laneAt order data k = (Block.unpack (Block.read order data))[k] := by
  simp only [laneAt, Block.samples, Nat.div_eq_of_lt hk, Nat.mod_eq_of_lt hk, Nat.zero_mul,
    List.drop_zero]
  rfl

/-- A sample whose bytes lie in the block is read back of the patched block, whatever
comes behind. -/
theorem laneAt_patch {block : Bytes} (given : List (Option (IQ Int16))) (rest : Bytes)
    (hwords : 4 ∣ block.length) (hblock : block.length ≤ Block.bytes)
    (hroom : 3 * (k + 1) ≤ block.length) :
    laneAt order (patch order block given ++ rest) k =
      (given[k]?.join.getD ((laneAt order block k).map fun x => x >>> (4 : Int16))).map
        (Block.lane ∘ Block.field) := by
  have hbytes : Block.bytes = 12 := rfl
  have hk : k < 4 := by omega
  obtain ⟨words, hlength⟩ := hwords
  have hwhole : 4 * (block.length / 4) = block.length := by omega
  rw [laneAt_of_lt _ hk, laneAt_of_lt _ hk, patch, hwhole, List.drop_length, List.append_nil]
  generalize hown : Block.components (Block.unpack (Block.read order block)) = own
  generalize hmerged : (Vector.ofFn fun k : Fin 4 => (given[k.val]?.join).getD own[k]) = merged
  -- the words that the lane reads are those that are written
  have hread : ∀ (j : Nat) (hj : j < 3), 4 * j < 3 * (k + 1) →
      (Block.read order ((Block.write order (Block.pack merged)).take block.length ++ rest))[j] =
        (Block.pack merged)[j] := by
    intro j hj hbefore
    rw [Block.getElem_read order _ hj, Block.wordAt_take_write hj (by omega) hblock]
  rw [Block.unpack_congr hk hread, Block.unpack_pack, Vector.getElem_map, ← hmerged,
    Vector.getElem_ofFn, ← hown]
  simp only [Block.components, Fin.getElem_fin, Vector.getElem_map]

/-! ## Runs from the start of a buffer -/

/-- Each sample that is given for blocks of `data` is read back of the patched blocks,
and where none is given the one that was there. -/
theorem laneAt_flatten_patched {count : Nat} {data : Bytes}
    {given : List (List (Option (IQ Int16)))} (hgiven : given.length = count)
    (hwords : 4 ∣ data.length) (hcount : k < count * 4) (hroom : 3 * (k + 1) ≤ data.length) :
    laneAt order (List.zipWith (patch order) (chunks Block.bytes count data) given).flatten k =
      (((given[k / 4]?.bind (·[k % 4]?)).join).getD
        ((laneAt order data k).map fun x => x >>> (4 : Int16))).map
          (Block.lane ∘ Block.field) := by
  induction count generalizing data given k with
  | zero => omega
  | succ count ih =>
    obtain ⟨first, rest, rfl⟩ := List.exists_cons_of_length_eq_add_one hgiven
    rw [chunks_succ, List.zipWith_cons_cons, List.flatten_cons]
    have hlength : (data.take Block.bytes).length = min 12 data.length := List.length_take
    by_cases hk : k < 4
    · -- in the first block
      have hfirst : laneAt order (data.take Block.bytes) k = laneAt order data k := by
        rw [laneAt_of_lt _ hk, laneAt_of_lt _ hk, read_take]
      rw [laneAt_patch first _ _ (List.length_take_le _ _) (by omega), hfirst,
        Nat.div_eq_of_lt hk, Nat.mod_eq_of_lt hk]
      · rfl
      · rw [hlength]
        omega
    · -- in one of the others, which begin behind it
      obtain ⟨k, rfl⟩ : ∃ j, k = Block.samples + j := ⟨k - 4, by simp [Block.samples]; omega⟩
      have hpatched : (patch order (data.take Block.bytes) first).length = Block.bytes := by
        rw [length_patch order _ _ (List.length_take_le _ _), hlength, Block.bytes]
        simp only [Block.samples] at hroom
        omega
      have hskip (bytes : Bytes) : laneAt order bytes (Block.samples + k) =
          laneAt order (bytes.drop Block.bytes) k := by
        simpa using (laneAt_drop order bytes 1 k).symm
      have hdiv : (Block.samples + k) / 4 = k / 4 + 1 := by
        simp only [Block.samples]
        omega
      have hmod : (Block.samples + k) % 4 = k % 4 := by
        simp only [Block.samples]
        omega
      have hdropped : (data.drop Block.bytes).length = data.length - 12 := List.length_drop
      simp only [Block.samples] at hcount hroom
      rw [hskip, hskip, List.drop_left' hpatched, hdiv, hmod, List.getElem?_cons_succ]
      apply ih (Nat.succ.inj hgiven)
      · rw [hdropped]
        omega
      · omega
      · rw [hdropped]
        omega

theorem laneAt_replicate_zero (n : Nat) : laneAt order (List.replicate n 0) k = ⟨0, 0⟩ := by
  have hword (n j : Nat) : order.wordAt (List.replicate n 0) j = 0 := by
    have hzeros : ((List.replicate n (0 : UInt8)).drop (4 * j) ++ [0, 0, 0, 0]).take 4 =
        [0, 0, 0, 0] := by
      rw [List.drop_replicate, show [0, 0, 0, 0] = List.replicate 4 (0 : UInt8) from rfl,
        List.replicate_append_replicate, List.take_replicate, Nat.min_eq_left (by omega)]
    rw [ByteOrder.wordAt, ByteOrder.word, hzeros]
    cases order <;> rfl
  have hread (n : Nat) : Block.read order (List.replicate n 0) = #v[0, 0, 0] := by
    rw [Block.read, hword, hword, hword]
  have hlane : ∀ j : Fin 4, (Block.unpack #v[0, 0, 0]).get j = ⟨0, 0⟩ := by decide
  rw [laneAt, List.drop_replicate, hread]
  exact hlane _

/-- What was packed into as many new words as it needs is read back, and if the words
have room for one sample more, that is zero. -/
theorem laneAt_write {samples : List (IQ Int16)} {payload : Bytes}
    (h : write order (List.replicate (4 * ((samples.length * 3 + 3) / 4)) 0) 0 samples =
      some payload)
    (hroom : 3 * (k + 1) ≤ payload.length) :
    laneAt order payload k = (samples[k]?.getD ⟨0, 0⟩).map (Block.lane ∘ Block.field) := by
  have hlength := length_write h
  rw [List.length_replicate] at hlength
  have hblocks : (⟨0, samples.length⟩ : Run).blocks = (samples.length + 3) / 4 := by
    simp [Run.blocks, Run.skipped, Block.samples]
  have hk : k / 4 < (samples.length + 3) / 4 := by omega
  have hgiven : ((chunks Block.samples ((samples.length + 3) / 4) (samples.map some))[k / 4]?.bind
      (·[k % 4]?)).join = samples[k]? := by
    rw [chunks_eq_map, List.getElem?_map, List.getElem?_range hk]
    simp only [Option.map_some, Option.bind_some, List.getElem?_take, List.getElem?_drop,
      Block.samples, Nat.mod_lt k (by decide : 0 < 4), if_true, Nat.div_add_mod', List.getElem?_map]
    cases samples[k]? <;> rfl
  unfold write at h
  dsimp only at h
  split at h
  · cases h
    simp only [Run.firstBlock, Run.skipped, Nat.zero_div, Nat.zero_mod, Nat.zero_mul,
      List.replicate_zero, List.nil_append, List.take_zero, List.drop_zero, hblocks]
    -- nothing of the buffer lies behind the blocks
    have hbehind : (List.replicate (4 * ((samples.length * 3 + 3) / 4)) (0 : UInt8)).drop
        (0 + (samples.length + 3) / 4 * Block.bytes) = [] := by
      apply List.drop_eq_nil_of_le
      rw [List.length_replicate, Block.bytes]
      omega
    rw [hbehind, List.append_nil, laneAt_flatten_patched (length_chunks ..) _ (by omega),
      laneAt_replicate_zero, hgiven]
    · rfl
    · rw [List.length_replicate, ← hlength]
      exact hroom
    · rw [List.length_replicate]
      exact Nat.dvd_mul_right ..
  · cases h

end Packed

/-! ## Components -/

theorem quantize_mem_range {bits : Nat} (x : Float) :
    -2 ^ (bits - 1) ≤ quantize bits x ∧ quantize bits x ≤ 2 ^ (bits - 1) - 1 := by
  have hpos : (0 : Int) < 2 ^ (bits - 1) := Int.pow_pos (by decide)
  exact Binary.Value.toIntWith_mem_range (by omega) (by omega) (Real.value x)

/-- A component of twelve bits is in its lane sixteen times as large. -/
theorem Block.toInt_lane_field {z : Int} (hlow : -2 ^ 11 ≤ z) (hhigh : z ≤ 2 ^ 11 - 1) :
    (lane (field (Int16.ofInt z))).toInt = growth * z := by
  have hfield : (field (Int16.ofInt z)).toInt = z := by
    rw [field, Int16.toBitVec_ofInt, BitVec.toInt_setWidth, BitVec.toNat_ofInt,
      Int.toNat_of_nonneg (Int.emod_nonneg _ (by decide)), Int.bmod_def]
    omega
  have hlane : (lane (field (Int16.ofInt z))).toInt =
      2 ^ 4 * (field (Int16.ofInt z)).toInt + 0 := BitVec.toInt_append
  rw [hlane, hfield, growth]
  omega

/-! ## Conversions -/

namespace Converter

/-- The sample with index `k` of a host buffer, rounded to components of twelve bits. -/
def quantizedAt (p : Precision) (scalar : Float) (buffer : Bytes) (k : Nat) : IQ Int :=
  (p.loadSample ((buffer.drop (k * p.sampleBytes)).take p.sampleBytes)).map fun x =>
    quantize 12 (x * scalar)

/-- The host bytes of a sample with components of twelve bits. -/
def decoded (p : Precision) (scalar : Float) (s : IQ Int) : Bytes :=
  p.storeSample (s.map fun z => Real.ofInt (Block.growth * z) * scalar)

/-- A sample of the host goes through the lanes with its twelve bits unchanged. -/
theorem storeSample_quantized (p : Precision) (scalar scalar' : Float) (s : IQ Float) :
    p.storeSample (((s.quantized 12 scalar).map (Block.lane ∘ Block.field)).scaled scalar') =
      decoded p scalar' (s.map fun x => quantize 12 (x * scalar)) := by
  have hcomponent (x : Float) :
      (Block.lane (Block.field (Int16.ofInt (quantize 12 (x * scalar))))).toInt =
        Block.growth * quantize 12 (x * scalar) :=
    Block.toInt_lane_field (quantize_mem_range _).1 (quantize_mem_range _).2
  simp only [decoded, IQ.quantized, IQ.scaled, IQ.map, Function.comp_apply, hcomponent]

/-- What is read back of the words that `count` samples were packed into: these
samples, and behind the last of them zeros. -/
theorem sampleAt_of_pack {order : ByteOrder} {p p' : Precision} {scalar scalar' : Float}
    {buffer payload : Bytes} {start count k : Nat}
    (h : (Converter.scaled (.packBlocks order p) scalar).convert ⟨buffer, start⟩
      ⟨List.replicate (4 * ((count * 3 + 3) / 4)) 0, 0⟩ count = some payload)
    (hroom : 3 * (k + 1) ≤ payload.length) :
    (Converter.scaled (.unpackBlocks order p') scalar').sampleAt payload k =
      decoded p' scalar'
        (if k < count then quantizedAt p scalar buffer (start + k) else ⟨0, 0⟩) := by
  simp only [convert, packRun] at h
  split at h
  · rename_i hzero
    subst hzero
    cases h
    simp at hroom
  · simp only [Option.bind_eq_bind, Option.bind_eq_some_iff] at h
    obtain ⟨items, hitems, hwrite⟩ := h
    obtain ⟨-, -, -, rfl⟩ := Place.items_eq_some_iff.mp hitems
    generalize hsamples : (chunks p.sampleBytes count _).map _ = samples at hwrite
    have hcount : samples.length = count := by rw [← hsamples, List.length_map, length_chunks]
    rw [← hcount] at hwrite
    rw [sampleAt, Packed.laneAt_write hwrite hroom]
    by_cases hk : k < count
    · rw [if_pos hk, ← hsamples, List.getElem?_map, chunks_eq_map, List.getElem?_map,
        List.getElem?_range hk, Option.map_some, Option.map_some, Option.getD_some,
        take_drop_run buffer hk, storeSample_quantized]
      rfl
    · rw [if_neg hk, List.getElem?_eq_none (by omega)]
      rfl

end Converter
end SampleStream.Sample
