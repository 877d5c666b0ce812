import SampleStream.Proofs.Packet.Canonical
import SampleStream.Proofs.Sample.Packing

/-!
# Samples laid over packed ones

Writing a run of packed samples puts each of them in the place of the one that was there
and keeps all others, bit by bit, whichever words they share. Word by word that is
`Block.put`, block by block `Packed.patch`, and over a whole buffer `Packed.overlay`: what
is written does not depend on where the blocks of the run begin and end
(`write_eq_overlay`), and to lay samples over others twice is to lay both over them at once
(`overlay_overlay`).
-/

namespace SampleStream.Sample

variable {given given' both : List (Option (IQ Int16))}

/-! ## Words -/

namespace Block

/-- The components in the words of a block. -/
def fields (words : Words) : Vector (IQ (BitVec 12)) 4 :=
  (components (unpack words)).map (IQ.map field)

/-- The words of a block with these components. -/
def ofFields (f : Vector (IQ (BitVec 12)) 4) : Words :=
  pack (f.map (IQ.map fun x => lane x >>> (4 : Int16)))

/-- The components of a block with those of the samples that are given in place of its
own. -/
def putFields (given : List (Option (IQ Int16))) (own : Vector (IQ (BitVec 12)) 4) :
    Vector (IQ (BitVec 12)) 4 :=
  own.mapIdx fun k f => (given[k]?.join).elim f (IQ.map field)

/-- The words of a block with the samples that are given in place of its own. -/
def put (given : List (Option (IQ Int16))) (words : Words) : Words :=
  ofFields (putFields given (fields words))

/-- A lane in its place goes back to the component it was made from. -/
theorem field_lane_shift (x : BitVec 12) : field (lane x >>> (4 : Int16)) = x := by
  have hshift : (lane x >>> (4 : Int16)).toBitVec = (x ++ 0#4).sshiftRight 4 := rfl
  rw [field, hshift]
  apply BitVec.eq_of_getLsbD_eq
  intro k hk
  have hupper : ¬ 4 + k < 4 := by omega
  have hplace : 4 + k < 12 + 4 := by omega
  have hinside : ¬ 12 + 4 ≤ k := by omega
  rw [BitVec.getLsbD_setWidth, BitVec.getLsbD_sshiftRight, BitVec.getLsbD_append]
  simp [hupper, hplace, hinside, hk]

theorem ofFields_fields (words : Words) : ofFields (fields words) = words := by
  apply Vector.ext
  intro j hj
  apply UInt32.toBitVec_inj.mp
  rcases (by omega : j = 0 ∨ j = 1 ∨ j = 2) with rfl | rfl | rfl <;>
    simp (disch := decide) only [ofFields, fields, pack, components, unpack, IQ.map,
      field_lane_shift, Vector.getElem_map, Vector.getElem_mk, List.getElem_toArray,
      List.getElem_cons_zero, List.getElem_cons_succ, BitVec.extractLsb'_append_eq_of_le,
      BitVec.extractLsb'_append_eq_of_add_le, Nat.reduceSub, BitVec.extractLsb'_eq_self,
      BitVec.extractLsb'_append_extractLsb'_eq_extractLsb']

theorem fields_ofFields (f : Vector (IQ (BitVec 12)) 4) : fields (ofFields f) = f := by
  apply Vector.ext
  intro k hk
  rcases (by omega : k = 0 ∨ k = 1 ∨ k = 2 ∨ k = 3) with rfl | rfl | rfl | rfl <;>
    simp (disch := decide) only [ofFields, fields, pack, components, unpack, IQ.map,
      field_lane_shift, Vector.getElem_map, Vector.getElem_mk, List.getElem_toArray,
      List.getElem_cons_zero, List.getElem_cons_succ, BitVec.extractLsb'_append_eq_of_le,
      BitVec.extractLsb'_append_eq_of_add_le, Nat.reduceSub, BitVec.extractLsb'_eq_self,
      BitVec.extractLsb'_append_extractLsb'_eq_extractLsb']

/-- Only the components of the lanes go into the words. -/
theorem pack_eq_ofFields (lanes : Lanes) : pack lanes = ofFields (lanes.map (IQ.map field)) := by
  simp only [ofFields, pack, Vector.getElem_map, IQ.map, field_lane_shift]

/-- Patching by way of the lanes comes to patching the words. -/
theorem pack_of_merged {words : Words} {lanes : Lanes}
    (h : ∀ (k : Nat) (hk : k < 4),
      lanes[k] = (given[k]?.join).getD (components (unpack words))[k]) :
    pack lanes = put given words := by
  rw [pack_eq_ofFields, put]
  congr 1
  apply Vector.ext
  intro k hk
  rw [Vector.getElem_map, h k hk, putFields, Vector.getElem_mapIdx]
  cases given[k]?.join with
  | none => exact (Vector.getElem_map ..).symm
  | some sample => rfl

/-- A word depends on what is given and on the word that was there. -/
theorem getElem_put_congr {words words' : Words} {j : Nat} (hj : j < 3)
    (h : words[j] = words'[j]) : (put given words)[j] = (put given words')[j] := by
  -- of a component that two words share each takes its own bits
  rcases (by omega : j = 0 ∨ j = 1 ∨ j = 2) with rfl | rfl | rfl <;>
    simp only [put, ofFields, pack, putFields, fields, components, unpack, IQ.map,
      field_lane_shift, h, Vector.getElem_map, Vector.getElem_mapIdx, Vector.getElem_mk,
      List.getElem_toArray, List.getElem_cons_zero, List.getElem_cons_succ] <;>
    cases given[1]?.join <;> cases given[2]?.join <;>
    simp (disch := decide) only [Option.elim_none, Option.elim_some,
      BitVec.extractLsb'_append_eq_of_le, BitVec.extractLsb'_append_eq_of_add_le]

theorem put_put (words : Words)
    (h : ∀ k : Nat, both[k]?.join = given'[k]?.join.or given[k]?.join) :
    put given' (put given words) = put both words := by
  rw [put, put, fields_ofFields, put]
  congr 1
  apply Vector.ext
  intro k hk
  simp only [putFields, Vector.getElem_mapIdx, h k]
  cases given'[k]?.join <;> rfl

theorem put_nothing (words : Words) (h : ∀ k < 4, given[k]?.join = none) :
    put given words = words := by
  have hown : putFields given (fields words) = fields words := by
    apply Vector.ext
    intro k hk
    rw [putFields, Vector.getElem_mapIdx, h k hk]
    rfl
  rw [put, hown, ofFields_fields]

end Block

/-! ## Blocks -/

namespace Packed

variable {order : ByteOrder} {block : Bytes}

theorem take_write (words : Block.Words) (m : Nat) :
    (Block.write order words).take (4 * m) = order.wordsBytes (words.toList.take m) := by
  have hsplit : Block.write order words =
      order.wordsBytes (words.toList.take m) ++ order.wordsBytes (words.toList.drop m) := by
    rw [ByteOrder.wordsBytes, ByteOrder.wordsBytes, ← List.flatMap_append, List.take_append_drop]
    rfl
  have hfront : (order.wordsBytes (words.toList.take m)).length = 4 * min m 3 := by
    rw [ByteOrder.length_wordsBytes, List.length_take, Vector.length_toList]
  rcases Nat.le_total m 3 with hm | hm
  · rw [hsplit, List.take_left' (by rw [hfront, Nat.min_eq_left hm])]
  · rw [List.take_of_length_le (by rw [Block.length_write, Block.bytes]; omega),
      List.take_of_length_le (by rwa [Vector.length_toList])]
    rfl

theorem take_write_congr {words words' : Block.Words} {m : Nat}
    (h : ∀ (j : Nat) (hj : j < 3), j < m → words[j] = words'[j]) :
    (Block.write order words).take (4 * m) = (Block.write order words').take (4 * m) := by
  have htake : words.toList.take m = words'.toList.take m := by
    apply List.ext_getElem
    · simp
    · intro j hj _
      rw [List.length_take, Vector.length_toList] at hj
      simpa using h j (by omega) (by omega)
  rw [take_write, take_write, htake]

theorem patch_eq (order : ByteOrder) (block : Bytes) (given : List (Option (IQ Int16))) :
    patch order block given =
      (Block.write order (Block.put given (Block.read order block))).take
        (4 * (block.length / 4)) ++ block.drop (4 * (block.length / 4)) := by
  rw [patch, Block.pack_of_merged fun k hk => Vector.getElem_ofFn ..]

theorem length_take_write (words : Block.Words) (hblock : block.length ≤ Block.bytes) :
    ((Block.write order words).take (4 * (block.length / 4))).length =
      4 * (block.length / 4) := by
  rw [Block.bytes] at hblock
  rw [List.length_take, Block.length_write, Block.bytes]
  omega

/-- The words that lie in the block are those with the samples put in. -/
theorem wordAt_patch (hblock : block.length ≤ Block.bytes) {j : Nat} (hj : j < 3)
    (hroom : j < block.length / 4) :
    order.wordAt (patch order block given) j =
      (Block.put given (Block.read order block))[j] := by
  rw [patch_eq, Block.wordAt_take_write hj (by omega) (by omega)]

theorem patch_patch (hblock : block.length ≤ Block.bytes)
    (h : ∀ k : Nat, both[k]?.join = given'[k]?.join.or given[k]?.join) :
    patch order (patch order block given) given' = patch order block both := by
  have hlength := length_patch order block given hblock
  have hbehind : (patch order block given).drop (4 * (block.length / 4)) =
      block.drop (4 * (block.length / 4)) := by
    rw [patch_eq, List.drop_left' (length_take_write _ hblock)]
  have hfront : (Block.write order
        (Block.put given' (Block.read order (patch order block given)))).take
          (4 * (block.length / 4)) =
      (Block.write order (Block.put both (Block.read order block))).take
        (4 * (block.length / 4)) := by
    apply take_write_congr
    intro j hj hroom
    have hread : (Block.read order (patch order block given))[j] =
        (Block.put given (Block.read order block))[j] := by
      rw [Block.getElem_read order _ hj, wordAt_patch hblock hj hroom]
    rw [Block.getElem_put_congr hj hread, Block.put_put _ h]
  rw [patch_eq, hlength, hbehind, hfront, ← patch_eq]

theorem patch_nothing (hblock : block.length ≤ Block.bytes)
    (h : ∀ k < 4, given[k]?.join = none) : patch order block given = block := by
  rw [Block.bytes] at hblock
  have hlength : ((Block.read order block).toList.take (block.length / 4)).length =
      block.length / 4 := by
    rw [List.length_take, Vector.length_toList]
    omega
  have hfront : order.wordsBytes ((Block.read order block).toList.take (block.length / 4)) =
      block.take (4 * (block.length / 4)) := by
    have hwords : ∀ k w, ((Block.read order block).toList.take (block.length / 4))[k]? = some w →
        order.wordAt block (0 + k) = w := by
      intro k w hk
      obtain ⟨hlt, hw⟩ := List.getElem?_eq_some_iff.mp hk
      rw [List.getElem_take, Vector.getElem_toList] at hw
      rw [Nat.zero_add, ← hw, Block.getElem_read]
    rw [order.wordsBytes_eq_take (by omega) hwords, hlength, Nat.mul_zero, List.drop_zero]
  rw [patch_eq, Block.put_nothing _ h, take_write, hfront, List.take_append_drop]

/-! ## Buffers -/

/-- The first `n` blocks of `data` with the samples that are given put in place of their
own. -/
def overlay (order : ByteOrder) : Nat → Bytes → List (Option (IQ Int16)) → Bytes
  | 0, _, _ => []
  | n + 1, data, given =>
    patch order (data.take Block.bytes) (given.take Block.samples) ++
      overlay order n (data.drop Block.bytes) (given.drop Block.samples)

theorem overlay_eq (n : Nat) (data : Bytes) (given : List (Option (IQ Int16))) :
    overlay order n data given = (List.zipWith (patch order) (chunks Block.bytes n data)
      (chunks Block.samples n given)).flatten := by
  induction n generalizing data given with
  | zero => rfl
  | succ n ih =>
    rw [overlay, ih, chunks_succ, chunks_succ, List.zipWith_cons_cons, List.flatten_cons]

theorem length_overlay (order : ByteOrder) (n : Nat) (data : Bytes)
    (given : List (Option (IQ Int16))) :
    (overlay order n data given).length = min (n * Block.bytes) data.length := by
  rw [overlay_eq, length_flatten_patched order n data (length_chunks ..)]

theorem overlay_add (n m : Nat) (data : Bytes) (given : List (Option (IQ Int16))) :
    overlay order (n + m) data given = overlay order n data given ++
      overlay order m (data.drop (n * Block.bytes)) (given.drop (n * Block.samples)) := by
  induction n generalizing data given with
  | zero => simp [overlay]
  | succ n ih =>
    rw [Nat.add_right_comm, overlay, ih, overlay, List.append_assoc, List.drop_drop, List.drop_drop,
      Nat.add_mul, Nat.add_mul, Nat.one_mul, Nat.one_mul, Nat.add_comm Block.bytes,
      Nat.add_comm Block.samples]

/-- Behind the data there is nothing to lay samples over. -/
theorem overlay_of_long {n : Nat} {data : Bytes} (hlong : data.length ≤ n * Block.bytes)
    (m : Nat) (given : List (Option (IQ Int16))) :
    overlay order (n + m) data given = overlay order n data given := by
  have hrest : overlay order m (data.drop (n * Block.bytes)) (given.drop (n * Block.samples)) =
      [] := by
    apply List.eq_nil_of_length_eq_zero
    rw [length_overlay, List.length_drop]
    omega
  rw [overlay_add, hrest, List.append_nil]

theorem overlay_nothing (n : Nat) (data : Bytes)
    (h : ∀ k < n * Block.samples, given[k]?.join = none) :
    overlay order n data given = data.take (n * Block.bytes) := by
  induction n generalizing data given with
  | zero => simp [overlay]
  | succ n ih =>
    rw [Nat.add_mul, Nat.one_mul] at h
    rw [overlay, patch_nothing (List.length_take_le ..), ih, Nat.add_mul, Nat.one_mul, Nat.add_comm,
      List.take_add]
    · intro k hk
      rw [List.getElem?_drop]
      exact h _ (by omega)
    · intro k hk
      rw [List.getElem?_take, Block.samples, if_pos hk]
      exact h k (by rw [Block.samples]; omega)

/-- Laying samples over the data twice lays both over it, the later ones on top. -/
theorem overlay_overlay (n : Nat) (data : Bytes)
    (h : ∀ k : Nat, both[k]?.join = given'[k]?.join.or given[k]?.join) :
    overlay order n (overlay order n data given) given' = overlay order n data both := by
  induction n generalizing data given given' both with
  | zero => rfl
  | succ n ih =>
    have hfirst := length_patch order (data.take Block.bytes) (given.take Block.samples)
      (List.length_take_le ..)
    have hrest := length_overlay order n (data.drop Block.bytes)
      (given.drop Block.samples)
    rw [List.length_take] at hfirst
    rw [List.length_drop] at hrest
    -- the blocks of what was written are the patched ones
    have htake : (overlay order (n + 1) data given).take Block.bytes =
        patch order (data.take Block.bytes) (given.take Block.samples) := by
      rw [overlay]
      rcases Nat.le_total Block.bytes data.length with hlong | hshort
      · rw [List.take_left' (by omega)]
      · rw [List.eq_nil_of_length_eq_zero (by omega : (overlay order n _ _).length = 0),
          List.append_nil, List.take_of_length_le (by omega)]
    have hdrop : (overlay order (n + 1) data given).drop Block.bytes =
        overlay order n (data.drop Block.bytes) (given.drop Block.samples) := by
      rw [overlay]
      rcases Nat.le_total Block.bytes data.length with hlong | hshort
      · rw [List.drop_left' (by omega)]
      · have hnil := List.eq_nil_of_length_eq_zero (by omega : (overlay order n
          (data.drop Block.bytes) (given.drop Block.samples)).length = 0)
        rw [hnil, List.append_nil, List.drop_eq_nil_of_le (by omega)]
    rw [overlay, htake, hdrop, patch_patch (List.length_take_le ..), ih, overlay]
    · intro k
      simp only [List.getElem?_drop]
      exact h _
    · intro k
      simp only [List.getElem?_take]
      split
      · exact h k
      · rfl

/-! ## Runs -/

/-- Samples by their position in the buffer, with nothing before the first of them. -/
def placed (start : Nat) (samples : List (IQ Int16)) : List (Option (IQ Int16)) :=
  List.replicate start none ++ samples.map some

/-- Writing a run lays its samples over the buffer. -/
theorem write_eq_overlay {data out : Bytes} {start n : Nat} {samples : List (IQ Int16)}
    (h : write order data start samples = some out) (hlong : data.length ≤ n * Block.bytes) :
    out = overlay order n data (placed start samples) := by
  unfold write at h
  dsimp only at h
  split at h
  · cases h
    generalize hr : (⟨start, samples.length⟩ : Run) = r
    have hstart : r.firstBlock * Block.samples + r.skipped = start := by
      rw [← hr]
      simp only [Run.firstBlock, Run.skipped, Block.samples]
      omega
    have hblocks : r.skipped + samples.length ≤ r.blocks * Block.samples := by
      rw [← hr]
      simp only [Run.blocks, Run.skipped, Block.samples]
      omega
    have hinside : (placed start samples).drop (r.firstBlock * Block.samples) =
        List.replicate r.skipped none ++ samples.map some := by
      rw [placed, ← hstart, ← List.replicate_append_replicate, List.append_assoc,
        List.drop_left' List.length_replicate]
    have hbehind : (List.replicate r.skipped none ++ samples.map some).drop
        (r.blocks * Block.samples) = [] := by
      apply List.drop_eq_nil_of_le
      simpa using hblocks
    have hbefore : overlay order r.firstBlock data (placed start samples) =
        data.take (r.firstBlock * Block.bytes) := by
      refine overlay_nothing _ data fun k hk => ?_
      rw [placed, List.getElem?_append_left (by rw [List.length_replicate]; omega),
        List.getElem?_replicate]
      split <;> rfl
    have hafter : overlay order n
        ((data.drop (r.firstBlock * Block.bytes)).drop (r.blocks * Block.bytes)) [] =
          data.drop (r.firstBlock * Block.bytes + r.blocks * Block.bytes) := by
      rw [overlay_nothing _ _ (fun _ _ => rfl), List.drop_drop, List.take_of_length_le]
      rw [List.length_drop]
      omega
    rw [← overlay_of_long hlong (r.firstBlock + r.blocks), Nat.add_comm n, Nat.add_assoc,
      overlay_add, overlay_add, hbefore, hinside, hbehind, hafter, overlay_eq, List.append_assoc]
  · cases h

end Packed
end SampleStream.Sample
