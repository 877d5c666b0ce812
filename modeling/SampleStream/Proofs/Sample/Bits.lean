import Mathlib.Data.List.GetD
import Mathlib.Data.List.Induction
import SampleStream.Proofs.Sample.Patching

/-!
# Packed samples bit by bit

The words of a block and its components are the same 96 bits, once cut after every 32 and
once after every 24 (`getMsbD_ofFields`). In the bits of a whole buffer, taken word by word
from the most significant one on, the sample with index `k` therefore has those from `24 * k`
on. Packing samples sets the bits of these samples and no others (`packs_bitwise`), also
where a word holds parts of two samples, and where the buffer ends inside a block.
-/

namespace SampleStream

/-! ## Bits in pieces -/

section Pieces
variable {v w m : Nat}

/-- Bit `m` of pieces of `w` bits, from the most significant one of the first piece on. -/
def pieceBit (pieces : List (BitVec w)) (m : Nat) : Bool :=
  (pieces.getD (m / w) 0).getMsbD (m % w)

/-- The number made of pieces of `w` bits, the most significant one first. -/
def joined (pieces : List (BitVec w)) : Nat :=
  pieces.foldl (fun n piece => 2 ^ w * n + piece.toNat) 0

theorem joined_append_singleton (front : List (BitVec w)) (last : BitVec w) :
    joined (front ++ [last]) = 2 ^ w * joined front + last.toNat := by
  rw [joined, List.foldl_append, List.foldl_cons, List.foldl_nil, ← joined]

theorem testBit_joined (pieces : List (BitVec w)) (hm : m < w * pieces.length) :
    (joined pieces).testBit (w * pieces.length - 1 - m) = pieceBit pieces m := by
  induction pieces using List.reverseRecOn with
  | nil => simp at hm
  | append_singleton front last ih =>
    have hw : 0 < w := Nat.pos_of_mul_pos_right (Nat.zero_lt_of_lt hm)
    have hsize : w * (front ++ [last]).length = w * front.length + w := by
      rw [List.length_append, List.length_singleton, Nat.mul_add, Nat.mul_one]
    rw [joined_append_singleton, Nat.testBit_two_pow_mul_add _ last.isLt, hsize]
    rw [hsize] at hm
    by_cases hfront : m < w * front.length
    · have hplace : w * front.length + w - 1 - m - w = w * front.length - 1 - m := by omega
      have hindex : m / w < front.length := Nat.div_lt_of_lt_mul hfront
      rw [if_neg (by omega), hplace, ih hfront, pieceBit, pieceBit,
        List.getD_append _ _ _ _ hindex]
    · -- in the last piece
      obtain ⟨b, rfl⟩ := Nat.exists_eq_add_of_le (Nat.not_lt.mp hfront)
      have hb : b < w := by omega
      have hdiv : (w * front.length + b) / w = front.length := by
        rw [Nat.mul_add_div hw, Nat.div_eq_of_lt hb, Nat.add_zero]
      have hmod : (w * front.length + b) % w = b := by rw [Nat.mul_add_mod, Nat.mod_eq_of_lt hb]
      have hplace : w * front.length + w - 1 - (w * front.length + b) = w - 1 - b := by omega
      rw [if_pos (by omega), hplace, pieceBit, hdiv, hmod,
        List.getD_append_right _ _ _ _ (by omega), Nat.sub_self, List.getD_cons_zero,
        BitVec.getMsbD_eq_getLsbD, decide_eq_true hb, Bool.true_and, ← BitVec.testBit_toNat]

/-- The same number has the same bits, however it is cut. -/
theorem pieceBit_eq_of_joined {xs : List (BitVec v)} {ys : List (BitVec w)}
    (hsize : v * xs.length = w * ys.length) (hjoined : joined xs = joined ys)
    (hm : m < v * xs.length) : pieceBit xs m = pieceBit ys m := by
  rw [← testBit_joined xs hm, ← testBit_joined ys (hsize ▸ hm), hjoined, hsize]

theorem toNat_append_eq (x : BitVec v) (y : BitVec w) :
    (x ++ y).toNat = x.toNat * 2 ^ w + y.toNat := by
  rw [BitVec.toNat_append, ← Nat.shiftLeft_add_eq_or_of_lt y.isLt, Nat.shiftLeft_eq]

end Pieces

namespace ByteOrder

/-- Bit `m` of the words in `data`, from the most significant one of the first word on. -/
def bitAt (order : ByteOrder) (data : Bytes) (m : Nat) : Bool :=
  (order.wordAt data (m / 32)).toBitVec.getMsbD (m % 32)

variable (order : ByteOrder) {xs ys : Bytes}

theorem wordAt_eq_of_bits {k : Nat}
    (h : ∀ b < 32, order.bitAt xs (32 * k + b) = order.bitAt ys (32 * k + b)) :
    order.wordAt xs k = order.wordAt ys k := by
  apply UInt32.toBitVec_inj.mp
  apply BitVec.eq_of_getMsbD_eq
  intro b hb
  have hdiv : (32 * k + b) / 32 = k := by omega
  have hmod : (32 * k + b) % 32 = b := by omega
  have hbit := h b hb
  rwa [bitAt, bitAt, hdiv, hmod] at hbit

/-- The bytes of a word that is the same are the same. -/
theorem getElem?_eq_of_wordAt {b : Nat} (hlength : xs.length = ys.length)
    (h : order.wordAt xs (b / 4) = order.wordAt ys (b / 4)) : xs[b]? = ys[b]? := by
  have hplace : 4 * (b / 4) + b % 4 = b := Nat.div_add_mod ..
  have hbyte {zs : Bytes} (hb : b < zs.length) :
      (order.wordBytes (order.wordAt zs (b / 4)))[b % 4]? = zs[b]? := by
    rw [wordAt, wordBytes_word, List.getElem?_take_of_lt (Nat.mod_lt _ (by decide)),
      List.getElem?_append_left (by rw [List.length_drop]; omega), List.getElem?_drop, hplace]
  by_cases hb : b < xs.length
  · rw [← hbyte hb, h, hbyte (hlength ▸ hb)]
  · rw [List.getElem?_eq_none (by omega), List.getElem?_eq_none (by omega)]

end ByteOrder

namespace Sample

/-! ## Blocks -/

namespace Block

/-- The bits of a sample, those of the in-phase component first. -/
def fieldBits (f : IQ (BitVec 12)) : BitVec 24 := f.i ++ f.q

/-- The words of a block are its components, cut otherwise. -/
theorem joined_ofFields (f : Vector (IQ (BitVec 12)) 4) :
    joined ((ofFields f).toList.map UInt32.toBitVec) = joined (f.toList.map fieldBits) := by
  obtain ⟨⟨l⟩, hl⟩ := f
  match l, hl with
  | [a, b, c, d], _ =>
    simp only [ofFields, pack, IQ.map, field_lane_shift, Vector.getElem_map, Vector.getElem_mk,
      List.getElem_toArray, List.getElem_cons_zero, List.getElem_cons_succ, joined, fieldBits,
      Vector.toList_mk, List.map_cons, List.map_nil, List.foldl_cons, List.foldl_nil,
      toNat_append_eq, BitVec.extractLsb'_toNat, Nat.shiftRight_eq_div_pow]
    omega

theorem getMsbD_ofFields (f : Vector (IQ (BitVec 12)) 4) {m : Nat} (hm : m < 96) :
    (ofFields f)[m / 32].toBitVec.getMsbD (m % 32) =
      (fieldBits f[m / 24]).getMsbD (m % 24) := by
  have hsame := pieceBit_eq_of_joined (m := m) (by simp) (joined_ofFields f) (by simpa using hm)
  have hword : m / 32 < 3 := by omega
  have hsample : m / 24 < 4 := by omega
  simpa [pieceBit, List.getD_eq_getElem?_getD, hword, hsample] using hsame

/-- Of the words with samples put in place of their own, each bit is one of the sample that
it belongs to. -/
theorem getMsbD_put (given : List (Option (IQ Int16))) (words : Words) {m : Nat} (hm : m < 96) :
    (put given words)[m / 32].toBitVec.getMsbD (m % 32) =
      (given[m / 24]?.join).elim (words[m / 32].toBitVec.getMsbD (m % 32))
        fun sample => (fieldBits (sample.map field)).getMsbD (m % 24) := by
  have hown : words[m / 32].toBitVec.getMsbD (m % 32) =
      (fieldBits (fields words)[m / 24]).getMsbD (m % 24) := by
    rw [← getMsbD_ofFields _ hm]
    simp only [ofFields_fields]
  rw [put, getMsbD_ofFields _ hm, hown, putFields, Vector.getElem_mapIdx]
  cases given[m / 24]?.join with
  | none => rfl
  | some sample => rfl

end Block

/-! ## Buffers -/

namespace Packed

variable {order : ByteOrder} {data out : Bytes} {n m : Nat}

/-- The bytes behind the last whole word stay. -/
theorem drop_overlay (hlong : data.length ≤ n * Block.bytes)
    (given : List (Option (IQ Int16))) :
    (overlay order n data given).drop (4 * (data.length / 4)) =
      data.drop (4 * (data.length / 4)) := by
  have hbytes : Block.bytes = 12 := rfl
  induction n generalizing data given with
  | zero => simp [overlay, List.eq_nil_of_length_eq_zero (by omega : data.length = 0)]
  | succ n ih =>
    have hpatched := length_patch order (data.take Block.bytes) (given.take Block.samples)
      (List.length_take_le ..)
    have hrest : (data.drop Block.bytes).length = data.length - Block.bytes := List.length_drop
    rw [List.length_take] at hpatched
    rw [overlay]
    by_cases hmore : Block.bytes ≤ data.length
    · -- the last whole word lies in the other blocks, or right before them
      have hwords : 4 * (data.length / 4) =
          Block.bytes + 4 * ((data.drop Block.bytes).length / 4) := by omega
      have hlater := @ih (data.drop Block.bytes) (by rw [Nat.add_mul] at hlong; omega)
        (given.drop Block.samples)
      rw [hwords, ← List.drop_drop, List.drop_left' (by omega), hlater, List.drop_drop]
    · have hlast : (overlay order n (data.drop Block.bytes) (given.drop Block.samples)).length =
          0 := by
        rw [length_overlay]
        omega
      have hblock : data.take Block.bytes = data := List.take_of_length_le (by omega)
      rw [List.eq_nil_of_length_eq_zero hlast, List.append_nil, hblock, patch_eq,
        List.drop_left' (length_take_write _ (by omega))]

/-- A word that lies in the data is one of its block with the samples put in. -/
theorem wordAt_overlay (hlong : data.length ≤ n * Block.bytes)
    (given : List (Option (IQ Int16))) {block j : Nat} (hj : j < 3)
    (hroom : 4 * (3 * block + j + 1) ≤ data.length) :
    order.wordAt (overlay order n data given) (3 * block + j) =
      (Block.put ((given.drop (block * Block.samples)).take Block.samples)
        (Block.read order (data.drop (block * Block.bytes))))[j] := by
  have hbytes : Block.bytes = 12 := rfl
  have hstart : block * Block.bytes = 12 * block := Nat.mul_comm ..
  obtain ⟨more, rfl⟩ : ∃ more, n = block + (more + 1) := by
    have hend : n * Block.bytes = 12 * n := Nat.mul_comm ..
    exact ⟨n - block - 1, by omega⟩
  have hfront : (overlay order block data given).length = 4 * (3 * block) := by
    rw [length_overlay]
    omega
  generalize hrest : data.drop (block * Block.bytes) = rest
  have hlength : rest.length = data.length - block * Block.bytes := by
    rw [← hrest, List.length_drop]
  have htake : (rest.take Block.bytes).length = min Block.bytes rest.length := List.length_take
  have hpatched := length_patch order (rest.take Block.bytes)
    ((given.drop (block * Block.samples)).take Block.samples) (List.length_take_le ..)
  rw [overlay_add, hrest, overlay, ByteOrder.wordAt, Nat.mul_add, ← List.drop_drop,
    List.drop_left' hfront, ← ByteOrder.wordAt,
    ← order.wordAt_take _ (Nat.le_refl (4 * (j + 1))),
    List.take_append_of_le_length (by omega), order.wordAt_take _ (Nat.le_refl _),
    wordAt_patch (List.length_take_le ..) hj (by omega), read_take]

/-- Bit by bit, the words of a buffer are its blocks. -/
theorem bitAt_eq (data : Bytes) (block : Nat) (hm : m < 96) :
    order.bitAt data (96 * block + m) =
      (Block.read order (data.drop (block * Block.bytes)))[m / 32].toBitVec.getMsbD (m % 32) := by
  have hword : 4 * ((96 * block + m) / 32) = block * Block.bytes + 4 * (m / 32) := by
    rw [Block.bytes]
    omega
  have hbit : (96 * block + m) % 32 = m % 32 := by omega
  rw [Block.getElem_read, ByteOrder.wordAt, List.drop_drop, ← hword, ByteOrder.bitAt, hbit,
    ByteOrder.wordAt]

/-- Of the bits of whole words each is one of the sample that it belongs to. -/
theorem bitAt_overlay (hlong : data.length ≤ n * Block.bytes)
    (given : List (Option (IQ Int16))) (hroom : 4 * (m / 32 + 1) ≤ data.length) :
    order.bitAt (overlay order n data given) m =
      (given[m / 24]?.join).elim (order.bitAt data m)
        fun sample => (Block.fieldBits (sample.map Block.field)).getMsbD (m % 24) := by
  obtain ⟨block, r, hr, rfl⟩ : ∃ block r, r < 96 ∧ m = 96 * block + r :=
    ⟨m / 96, m % 96, Nat.mod_lt _ (by decide), (Nat.div_add_mod ..).symm⟩
  have hword : (96 * block + r) / 32 = 3 * block + r / 32 := by omega
  have hbit : (96 * block + r) % 32 = r % 32 := by omega
  have hsample : block * Block.samples + r / 24 = (96 * block + r) / 24 := by
    rw [Block.samples]
    omega
  have hfield : (96 * block + r) % 24 = r % 24 := by omega
  have hplace : r / 24 < Block.samples := by
    rw [Block.samples]
    omega
  rw [hword] at hroom
  rw [bitAt_eq data block hr, ByteOrder.bitAt, hword, hbit,
    wordAt_overlay hlong given (by omega) hroom, Block.getMsbD_put _ _ hr,
    List.getElem?_take_of_lt hplace, List.getElem?_drop, hsample, hfield]

/-- The bits of a word that lies in the data only in part stay. -/
theorem bitAt_overlay_behind (hlong : data.length ≤ n * Block.bytes)
    (given : List (Option (IQ Int16))) (hbehind : data.length < 4 * (m / 32 + 1)) :
    order.bitAt (overlay order n data given) m = order.bitAt data m := by
  have hstart : 4 * (m / 32) = 4 * (data.length / 4) + (4 * (m / 32) - 4 * (data.length / 4)) := by
    omega
  rw [ByteOrder.bitAt, ByteOrder.wordAt, hstart, ← List.drop_drop, drop_overlay hlong,
    List.drop_drop, ← hstart, ← ByteOrder.wordAt, ← ByteOrder.bitAt]

/-! ## Runs -/

theorem getElem?_placed (start : Nat) (samples : List (IQ Int16)) (k : Nat) :
    (placed start samples)[k]?.join = if start ≤ k then samples[k - start]? else none := by
  rw [placed]
  split
  · rename_i hle
    rw [List.getElem?_append_right (by rwa [List.length_replicate]), List.length_replicate,
      List.getElem?_map]
    cases samples[k - start]? <;> rfl
  · rename_i hlt
    rw [List.getElem?_append_left (by rw [List.length_replicate]; omega), List.getElem?_replicate,
      if_pos (by omega)]
    rfl

variable {start : Nat} {samples : List (IQ Int16)}

/-- A sample of a run has its bits in the buffer that the run is written to. -/
theorem bitAt_write (h : write order data start samples = some out) {k b : Nat}
    {sample : IQ Int16} (hsample : samples[k]? = some sample) (hb : b < 24)
    (hroom : 4 * ((24 * (start + k) + b) / 32 + 1) ≤ data.length) :
    order.bitAt out (24 * (start + k) + b) =
      (Block.fieldBits (sample.map Block.field)).getMsbD b := by
  have hlong : data.length ≤ data.length * Block.bytes := Nat.le_mul_of_pos_right _ (by decide)
  have hindex : (24 * (start + k) + b) / 24 = start + k := by omega
  have hbit : (24 * (start + k) + b) % 24 = b := by omega
  rw [write_eq_overlay h hlong, bitAt_overlay hlong _ hroom, hindex, hbit, getElem?_placed,
    if_pos (Nat.le_add_right ..), Nat.add_sub_cancel_left, hsample, Option.elim_some]

/-- Writing a run leaves the bits before its samples and behind them. -/
theorem bitAt_write_of_outside (h : write order data start samples = some out)
    (houtside : m < 24 * start ∨ 24 * (start + samples.length) ≤ m) :
    order.bitAt out m = order.bitAt data m := by
  have hlong : data.length ≤ data.length * Block.bytes := Nat.le_mul_of_pos_right _ (by decide)
  have hnothing : (placed start samples)[m / 24]?.join = none := by
    rw [getElem?_placed]
    split
    · exact List.getElem?_eq_none (by omega)
    · rfl
  rw [write_eq_overlay h hlong]
  by_cases hroom : 4 * (m / 32 + 1) ≤ data.length
  · rw [bitAt_overlay hlong _ hroom, hnothing, Option.elim_none]
  · exact bitAt_overlay_behind hlong _ (by omega)

end Packed

/-! ## Packing -/

namespace Converter

theorem packRun_eq_write (order : ByteOrder) (p : Precision) (scalar : Float) {source : Bytes}
    (target : Place) {i n : Nat} (hcount : 0 < n)
    (hroom : (i + n) * p.sampleBytes ≤ source.length) (hsize : source.length < sizeLimit) :
    packRun order p scalar ⟨source, i⟩ target n =
      Packed.write order target.buffer target.start
        ((List.range n).map fun k => (quantizedAt p scalar source (i + k)).map Int16.ofInt) := by
  obtain ⟨items, hitems⟩ : ∃ items, (Place.mk source i).items p.sampleBytes n = some items :=
    items_eq_some hroom (Nat.lt_of_le_of_lt hroom hsize)
  obtain ⟨-, -, -, rfl⟩ := Place.items_eq_some_iff.mp hitems
  have hsamples : (chunks p.sampleBytes n ((source.drop (i * p.sampleBytes)).take
        (n * p.sampleBytes))).map (fun bytes => (p.loadSample bytes).quantized 12 scalar) =
      (List.range n).map fun k => (quantizedAt p scalar source (i + k)).map Int16.ofInt := by
    rw [chunks_eq_map, List.map_map]
    apply List.map_congr_left
    intro k hk
    rw [Function.comp_apply, take_drop_run source (List.mem_range.mp hk)]
    rfl
  rw [packRun, if_neg (by omega), hitems, ← hsamples]
  rfl

/-- A run that fits in the words of a buffer can be packed there. -/
theorem reachable_of_words {r : Packed.Run} {length : Nat} (hcount : 0 < r.count)
    (hroom : 4 * ((3 * (r.start + r.count) + 3) / 4) ≤ length) (hsize : length < storageLimit) :
    r.reachable Block.bytes length = true := by
  have hlimit : storageLimit + Block.bytes < sizeLimit := by decide
  rw [Packed.Run.reachable_iff hcount]
  intro block htouches
  simp only [Packed.Run.Touches, Packed.Run.Owns, Block.samples] at htouches ⊢
  simp only [Block.bytes] at hlimit ⊢
  omega

/-- The bits of a sample on the wire: the twelve low ones of each component. -/
def wireBits (s : IQ Int) : BitVec 24 := BitVec.ofInt 12 s.i ++ BitVec.ofInt 12 s.q

theorem fieldBits_ofInt (s : IQ Int) :
    Block.fieldBits ((s.map Int16.ofInt).map Block.field) = wireBits s := by
  have hfield (z : Int) : Block.field (Int16.ofInt z) = BitVec.ofInt 12 z := by
    apply BitVec.eq_of_toNat_eq
    rw [Block.field, Int16.toBitVec_ofInt, BitVec.toNat_setWidth, BitVec.toNat_ofInt,
      BitVec.toNat_ofInt]
    omega
  rw [Block.fieldBits, wireBits, IQ.map, IQ.map, hfield, hfield]

end Converter
end Sample
end SampleStream
