import SampleStream.Proofs.Sample.Pieces

/-!
# Packing part by part

A run of samples is packed in three parts, each with conditions of its own: the blocks at
its ends are read, patched and put back word by word, as far as there is room, those between
are written to a slice of the buffer. Every access of the three is inside exactly when the
run can be reached, and together they lay its samples over the buffer
(`writeGuarded_eq`, `packRunGuarded_eq`).
-/

namespace SampleStream.Sample

namespace Packed

variable {order : ByteOrder} {data : Bytes}

/-! ## Single blocks -/

/-- The words for which there is room come to stand one after the other. -/
theorem putWords_eq (order : ByteOrder) (data : Bytes) (start : Nat) (words : List UInt32) :
    putWords order data start words =
      Guarded.bounded (if words = [] ∨ start + 4 * words.length < sizeLimit then
        some (splice data start (order.wordsBytes (words.take ((data.length - start) / 4))))
        else none) := by
  induction words generalizing data start with
  | nil => simp [putWords, splice, ByteOrder.wordsBytes]
  | cons w rest ih =>
    have hlength : (w :: rest).length = rest.length + 1 := rfl
    rw [putWords]
    by_cases hstop : start + 4 < sizeLimit
    · have hcondition : (rest = [] ∨ start + 4 + 4 * rest.length < sizeLimit) ↔
          (w :: rest = [] ∨ start + 4 * (w :: rest).length < sizeLimit) := by
        rcases rest with _ | ⟨_, _⟩ <;> simp <;> omega
      rw [Guarded.bounded_addSize hstop, Guarded.ok_bind, ih]
      simp only [hcondition]
      congr 3
      by_cases hroom : start + 4 ≤ data.length
      · have hword : start + (order.wordBytes w).length ≤ data.length := by
          rwa [ByteOrder.length_wordBytes]
        have hwords : (data.length - start) / 4 = (data.length - (start + 4)) / 4 + 1 := by omega
        rw [if_pos hroom, length_splice hword, hwords, List.take_succ_cons]
        have hmore := splice_splice (by omega : start ≤ data.length) (order.wordBytes w)
          (order.wordsBytes (rest.take ((data.length - (start + 4)) / 4)))
        rw [ByteOrder.length_wordBytes] at hmore
        rw [hmore]
        rfl
      · have hnone : (data.length - start) / 4 = 0 := by omega
        have hnone' : (data.length - (start + 4)) / 4 = 0 := by omega
        rw [if_neg hroom, hnone, hnone']
        simp [splice, ByteOrder.wordsBytes]
    · rw [if_neg (by simp; omega), addSize, fitSize, if_neg hstop]
      rfl

/-- To write the words for which there is room over a block is to patch it. -/
theorem splice_words (words : Block.Words) {block : Bytes} {base : Nat}
    (hblock : (data.drop base).take Block.bytes = block) :
    splice data base (order.wordsBytes (words.toList.take ((data.length - base) / 4))) =
      data.take base ++ ((Block.write order words).take (4 * (block.length / 4)) ++
        block.drop (4 * (block.length / 4))) ++ data.drop (base + Block.bytes) := by
  have hbytes : Block.bytes = 12 := rfl
  have hlength : block.length = min Block.bytes (data.length - base) := by
    rw [← hblock, List.length_take, List.length_drop]
  have hwritten : order.wordsBytes (words.toList.take ((data.length - base) / 4)) =
      (Block.write order words).take (4 * (block.length / 4)) := by
    rw [← take_write, List.take_eq_take_iff, Block.length_write]
    omega
  have hbehind : data.drop (base + 4 * (block.length / 4)) =
      block.drop (4 * (block.length / 4)) ++ data.drop (base + Block.bytes) := by
    have hsplit : block ++ (data.drop base).drop Block.bytes = data.drop base :=
      hblock ▸ List.take_append_drop ..
    rw [← List.drop_drop, ← hsplit, List.drop_append_of_le_length (by omega), List.drop_drop]
  rw [hwritten, splice, length_take_write words (by omega), hbehind]
  simp only [List.append_assoc]

/-- A block that is read, patched and put back is the patched block in its place. -/
theorem patchIn_eq (order : ByteOrder) (data : Bytes) (block : Nat) {first : Nat}
    {samples : List (IQ Int16)} (hinside : first + samples.length ≤ Block.samples) :
    patchIn order data block first samples =
      Guarded.bounded (if block * Block.bytes + Block.bytes < sizeLimit then
        some (data.take (block * Block.bytes) ++
          patch order ((data.drop (block * Block.bytes)).take Block.bytes)
            (List.replicate first none ++ samples.map some) ++
          data.drop (block * Block.bytes + Block.bytes))
        else none) := by
  have hbytes : Block.bytes = 12 := rfl
  rw [patchIn]
  by_cases hlast : block * Block.bytes + 8 < sizeLimit
  · rw [Guarded.bounded_mulSize (by omega), Guarded.ok_bind, Guarded.bounded_addSize hlast,
      Guarded.ok_bind, Guarded.difference_of_le hinside, Guarded.ok_bind, putWords_eq,
      splice_words _ rfl, Vector.length_toList, patch, read_take]
    have hwords (words : Block.Words) : words.toList ≠ [] :=
      List.ne_nil_of_length_pos (by rw [Vector.length_toList]; decide)
    simp only [hwords, false_or, hbytes]
    rfl
  · rw [if_neg (by omega)]
    by_cases hbase : block * Block.bytes < sizeLimit
    · rw [Guarded.bounded_mulSize hbase, Guarded.ok_bind, addSize, fitSize, if_neg hlast]
      rfl
    · rw [mulSize, fitSize, if_neg hbase]
      rfl

/-- Samples inside one block, which they do not fill, are laid over the buffer. -/
theorem patchIn_eq_overlay (order : ByteOrder) {data : Bytes} {n : Nat}
    (hlong : data.length ≤ n * Block.bytes) (block : Nat) {first : Nat}
    {samples : List (IQ Int16)} (hsome : 0 < samples.length)
    (hpart : samples.length < Block.samples) (hinside : first + samples.length ≤ Block.samples) :
    patchIn order data block first samples =
      Guarded.bounded (if block * Block.bytes + Block.bytes < sizeLimit then
        some (overlay order n data (placed (block * Block.samples + first) samples))
        else none) := by
  rw [patchIn_eq order data block hinside]
  by_cases hsize : block * Block.bytes + Block.bytes < sizeLimit
  · rw [if_pos hsize, if_pos hsize]
    congr 2
    refine write_eq_overlay ?_ hlong
    generalize hr : (Run.mk (block * Block.samples + first) samples.length) = r
    have hfields : r.firstBlock = block ∧ r.skipped = first ∧ r.blocks = 1 := by
      rw [← hr]
      simp only [Run.firstBlock, Run.skipped, Run.blocks, Block.samples] at hinside ⊢
      omega
    have hreach : r.reachable 12 data.length = true := by
      rw [← hr, Run.reachable_iff hsome]
      intro other htouches
      simp only [Run.Touches, Run.Owns, Block.samples] at htouches hpart hinside ⊢
      obtain rfl : other = block := by omega
      exact ⟨by omega, fun _ => hsize⟩
    have hwhole : (List.replicate first none ++ samples.map some).length ≤ Block.samples := by
      simpa using hinside
    obtain ⟨hblock, hskipped, hone⟩ := hfields
    rw [write]
    dsimp only
    rw [hr, if_pos hreach, hblock, hskipped, hone]
    simp only [chunks_succ, chunks_zero, List.zipWith_cons_cons, List.zipWith_nil_left,
      List.flatten_cons, List.flatten_nil, List.append_nil, Nat.one_mul,
      List.take_of_length_le hwhole]
  · rw [if_neg hsize, if_neg hsize]

/-! ## Whole blocks -/

theorem patch_whole {block : Bytes} {own : List (IQ Int16)} (hblock : block.length = Block.bytes)
    (hown : own.length = Block.samples) :
    patch order block (own.map some) =
      Block.write order (Block.pack (Vector.ofFn fun k => own.getD k.val ⟨0, 0⟩)) := by
  have hwords : 4 * (block.length / 4) = Block.bytes := by
    rw [hblock]
    rfl
  have hgiven (k : Fin 4) : ((own.map some)[k.val]?).join = some (own.getD k.val ⟨0, 0⟩) := by
    have hk : k.val < own.length := by rw [hown]; exact k.isLt
    simp [hk]
  rw [patch, hwords, ← hblock, List.drop_length, List.append_nil, hblock,
    List.take_of_length_le (Nat.le_of_eq (Block.length_write ..))]
  simp only [hgiven, Option.getD_some]

/-- Whole blocks keep nothing of what was there. -/
theorem flatten_patched_whole {count : Nat} {data : Bytes} {samples : List (IQ Int16)}
    (hdata : count * Block.bytes ≤ data.length)
    (hsamples : samples.length = count * Block.samples) :
    (List.zipWith (patch order) (chunks Block.bytes count data)
      (chunks Block.samples count (samples.map some))).flatten =
      blockBytes order count samples := by
  induction count generalizing data samples with
  | zero => rfl
  | succ count ih =>
    rw [Nat.add_mul, Nat.one_mul] at hdata hsamples
    have hfirst : (data.take Block.bytes).length = Block.bytes := by
      rw [List.length_take]
      omega
    have hown : (samples.take Block.samples).length = Block.samples := by
      rw [List.length_take]
      omega
    have hrest : blockBytes order (count + 1) samples =
        Block.write order (Block.pack
          (Vector.ofFn fun k => (samples.take Block.samples).getD k.val ⟨0, 0⟩)) ++
        blockBytes order count (samples.drop Block.samples) := by
      rw [blockBytes, chunks_succ, List.flatMap_cons, blockBytes]
    rw [chunks_succ, chunks_succ, List.zipWith_cons_cons, List.flatten_cons, ← List.map_take,
      ← List.map_drop, patch_whole hfirst hown, ih, hrest]
    · rw [List.length_drop]
      omega
    · rw [List.length_drop]
      omega

theorem length_blockBytes (order : ByteOrder) (count : Nat) (samples : List (IQ Int16)) :
    (blockBytes order count samples).length = count * Block.bytes := by
  rw [blockBytes, length_flatMap_of_const fun _ _ => Block.length_write .., length_chunks]

/-- Whole blocks that lie in the buffer are laid over it. -/
theorem putBlocks_eq_overlay (order : ByteOrder) {data : Bytes} {n : Nat}
    (hlong : data.length ≤ n * Block.bytes) (hsize : data.length < sizeLimit) (block : Nat)
    {count : Nat} {samples : List (IQ Int16)} (hcount : 0 < count)
    (hsamples : samples.length = count * Block.samples) :
    putBlocks order data block count samples =
      Guarded.bounded (if (block + count) * Block.bytes ≤ data.length then
        some (overlay order n data (placed (block * Block.samples) samples)) else none) := by
  rw [putBlocks, if_neg (by omega), slice_blocks_bind hsize]
  by_cases hroom : (block + count) * Block.bytes ≤ data.length
  · rw [if_pos hroom, if_pos hroom]
    change Except.ok _ = Except.ok _
    congr 1
    refine write_eq_overlay ?_ hlong
    generalize hr : (Run.mk (block * Block.samples) samples.length) = r
    have hfields : r.firstBlock = block ∧ r.skipped = 0 ∧ r.blocks = count := by
      rw [← hr]
      simp only [Run.firstBlock, Run.skipped, Run.blocks, Block.samples] at hsamples ⊢
      omega
    have hsome : 0 < samples.length := hsamples ▸ Nat.mul_pos hcount (by decide)
    have hreach : r.reachable 12 data.length = true := by
      rw [← hr, Run.reachable_iff hsome]
      intro other htouches
      simp only [Run.Touches, Run.Owns, Block.bytes, Block.samples] at htouches hsamples hroom ⊢
      omega
    have hdata : count * Block.bytes ≤ (data.drop (block * Block.bytes)).length := by
      rw [Nat.add_mul] at hroom
      rw [List.length_drop]
      omega
    obtain ⟨hblock, hskipped, hblocks⟩ := hfields
    rw [write]
    dsimp only
    rw [hr, if_pos hreach, hblock, hskipped, hblocks, List.replicate_zero, List.nil_append,
      flatten_patched_whole hdata hsamples, splice, length_blockBytes]
  · rw [if_neg hroom, if_neg hroom]
    rfl

/-! ## Runs -/

theorem overlay_no_samples {n : Nat} (hlong : data.length ≤ n * Block.bytes) (start : Nat) :
    overlay order n data (placed start []) = data := by
  have hnothing : ∀ k < n * Block.samples, (placed start [])[k]?.join = none := by
    intro k _
    rw [placed, List.map_nil, List.append_nil, List.getElem?_replicate]
    split <;> rfl
  rw [overlay_nothing n data hnothing, List.take_of_length_le hlong]

theorem patchHead_eq (order : ByteOrder) {data : Bytes} {n : Nat}
    (hlong : data.length ≤ n * Block.bytes) {r : Run} (hsome : 0 < r.count)
    {samples : List (IQ Int16)} (hsamples : samples.length = r.headCount) :
    patchHead order data r samples =
      Guarded.bounded (if r.skipped = 0 ∨ r.firstBlock * Block.bytes + Block.bytes < sizeLimit then
        some (overlay order n data (placed r.start samples)) else none) := by
  rw [patchHead]
  rcases r.head_cases with ⟨hzero, hnone, -⟩ | ⟨hinside, hhead, -⟩
  · have hnil : samples = [] := List.eq_nil_of_length_eq_zero (hsamples.trans hnone)
    rw [if_pos hzero, if_pos (.inl hzero), hnil, overlay_no_samples hlong]
    rfl
  · have hskipped : r.skipped < Block.samples := Nat.mod_lt _ (by decide)
    have hstart : r.firstBlock * Block.samples + r.skipped = r.start := by
      simp only [Run.firstBlock, Run.skipped, Block.samples]
      omega
    rw [if_neg hinside, patchIn_eq_overlay order hlong _ (by omega) (by omega) (by omega), hstart]
    simp only [hinside, false_or]

theorem putBlocks_eq (order : ByteOrder) {data : Bytes} {n : Nat}
    (hlong : data.length ≤ n * Block.bytes) (hsize : data.length < sizeLimit) {r : Run}
    {samples : List (IQ Int16)} (hsamples : samples.length = r.wholeBlocks * Block.samples) :
    putBlocks order data r.bodyBlock r.wholeBlocks samples =
      Guarded.bounded (if r.wholeBlocks = 0 ∨
          (r.bodyBlock + r.wholeBlocks) * Block.bytes ≤ data.length then
        some (overlay order n data (placed (r.start + r.headCount) samples)) else none) := by
  by_cases hzero : r.wholeBlocks = 0
  · have hnil : samples = [] :=
      List.eq_nil_of_length_eq_zero (by rw [hsamples, hzero, Nat.zero_mul])
    rw [putBlocks, if_pos hzero, if_pos (.inl hzero), hnil, overlay_no_samples hlong]
    rfl
  · rw [putBlocks_eq_overlay order hlong hsize _ (Nat.pos_of_ne_zero hzero) hsamples,
      Run.bodyBlock_eq (Run.headCount_lt (.inl hzero))]
    simp only [hzero, false_or]

theorem patchTail_eq (order : ByteOrder) {data : Bytes} {n : Nat}
    (hlong : data.length ≤ n * Block.bytes) {r : Run} {samples : List (IQ Int16)}
    (hsamples : samples.length = r.tailCount) :
    patchTail order data (r.bodyBlock + r.wholeBlocks) samples =
      Guarded.bounded (if r.tailCount = 0 ∨
          (r.bodyBlock + r.wholeBlocks) * Block.bytes + Block.bytes < sizeLimit then
        some (overlay order n data
          (placed (r.start + r.headCount + r.wholeBlocks * Block.samples) samples)) else none) := by
  rw [patchTail, hsamples]
  by_cases hzero : r.tailCount = 0
  · have hnil : samples = [] := List.eq_nil_of_length_eq_zero (hsamples.trans hzero)
    rw [if_pos hzero, if_pos (.inl hzero), hnil, overlay_no_samples hlong]
    rfl
  · have htail : r.tailCount < Block.samples := Nat.mod_lt _ (by decide)
    have hstart : (r.bodyBlock + r.wholeBlocks) * Block.samples + 0 =
        r.start + r.headCount + r.wholeBlocks * Block.samples := by
      rw [Nat.add_mul, Run.bodyBlock_eq (Run.headCount_lt (.inr hzero)), Nat.add_zero]
    rw [if_neg hzero, patchIn_eq_overlay order hlong _ (by omega) (by omega) (by omega), hstart]
    simp only [hzero, false_or]

/-- Laying samples over a buffer and those that follow them is laying both over it. -/
theorem overlay_placed_append (order : ByteOrder) (n : Nat) (data : Bytes) (start : Nat)
    (front more : List (IQ Int16)) :
    overlay order n (overlay order n data (placed start front))
        (placed (start + front.length) more) =
      overlay order n data (placed start (front ++ more)) :=
  overlay_overlay n data (placed_append start front more)

/-- The three parts of a run that is written can be reached, each by itself. -/
theorem Run.reachable_parts_iff {r : Run} {length : Nat} :
    r.reachable 12 length = true ↔
      ((r.skipped = 0 ∨ r.firstBlock * Block.bytes + Block.bytes < sizeLimit) ∧
        (r.wholeBlocks = 0 ∨ (r.bodyBlock + r.wholeBlocks) * Block.bytes ≤ length)) ∧
        (r.tailCount = 0 ∨
          (r.bodyBlock + r.wholeBlocks) * Block.bytes + Block.bytes < sizeLimit) := by
  simp only [reachable, Bool.and_eq_true, Bool.or_eq_true, beq_iff_eq, decide_eq_true_eq]
  rfl

/-- The samples of the three parts. -/
theorem Run.exists_parts {r : Run} {samples : List (IQ Int16)}
    (hlength : samples.length = r.count) :
    ∃ head body tail, samples = head ++ (body ++ tail) ∧ head.length = r.headCount ∧
      body.length = r.wholeBlocks * Block.samples ∧ tail.length = r.tailCount := by
  have hparts := r.count_eq
  generalize hrest : samples.drop r.headCount = rest
  have hrestLength : rest.length = r.count - r.headCount := by
    rw [← hrest, List.length_drop, hlength]
  refine ⟨samples.take r.headCount, rest.take (r.wholeBlocks * Block.samples),
    rest.drop (r.wholeBlocks * Block.samples), ?_, ?_, ?_, ?_⟩
  · rw [List.take_append_drop, ← hrest, List.take_append_drop]
  · rw [List.length_take]
    omega
  · rw [List.length_take]
    omega
  · rw [List.length_drop]
    omega

/-- Every access of the three parts is inside exactly when the run can be reached, and what
they write is the run. -/
theorem writeGuarded_eq (order : ByteOrder) {data : Bytes} (hsize : data.length < sizeLimit)
    (start : Nat) {samples : List (IQ Int16)} (hsome : samples ≠ []) :
    writeGuarded order data start samples =
      Guarded.bounded (write order data start samples) := by
  generalize hr : (Run.mk start samples.length) = r
  have hlength : samples.length = r.count := by rw [← hr]
  have hcount : 0 < r.count := hlength ▸ List.length_pos_iff.mpr hsome
  obtain ⟨n, hlong⟩ : ∃ n, data.length ≤ n * Block.bytes :=
    ⟨data.length, Nat.le_mul_of_pos_right _ (by decide)⟩
  have hwhole : (r.count - r.headCount) / Block.samples = r.wholeBlocks := rfl
  have hstop (h : ¬ r.reachable 12 data.length = true) : write order data start samples = none :=
    if_neg (hr ▸ h)
  obtain ⟨head, body, tail, rfl, hhead, hbody, htail⟩ := Run.exists_parts hlength
  have hkeep (piece : List (IQ Int16)) (first : Nat) {buffer : Bytes}
      (hbuffer : buffer.length = data.length) :
      (overlay order n buffer (placed first piece)).length = data.length := by
    rw [length_overlay]
    omega
  rw [writeGuarded]
  dsimp only
  rw [hr, hlength, List.take_left' hhead, List.drop_left' hhead,
    patchHead_eq order hlong hcount hhead]
  by_cases hfirst : r.skipped = 0 ∨ r.firstBlock * Block.bytes + Block.bytes < sizeLimit
  · have hone := hkeep head r.start rfl
    rw [if_pos hfirst, Guarded.bounded_some, Guarded.ok_bind,
      Guarded.difference_of_le r.headCount_le, Guarded.ok_bind, hwhole, List.take_left' hbody,
      List.drop_left' hbody, putBlocks_eq order (Nat.le_trans (Nat.le_of_eq hone) hlong)
        (Nat.lt_of_le_of_lt (Nat.le_of_eq hone) hsize) hbody, hone]
    by_cases hmiddle : r.wholeBlocks = 0 ∨
        (r.bodyBlock + r.wholeBlocks) * Block.bytes ≤ data.length
    · have htwo := hkeep body (r.start + r.headCount) hone
      rw [if_pos hmiddle, Guarded.bounded_some, Guarded.ok_bind,
        patchTail_eq order (Nat.le_trans (Nat.le_of_eq htwo) hlong) htail]
      by_cases hlast : r.tailCount = 0 ∨
          (r.bodyBlock + r.wholeBlocks) * Block.bytes + Block.bytes < sizeLimit
      · have hall : Run.reachable ⟨start, (head ++ (body ++ tail)).length⟩ 12 data.length = true :=
          hr ▸ Run.reachable_parts_iff.mpr ⟨⟨hfirst, hmiddle⟩, hlast⟩
        obtain ⟨out, hout⟩ := write_of_reachable order data start _ hall
        have hstart : r.start = start := by rw [← hr]
        rw [if_pos hlast, hout, write_eq_overlay hout hlong, ← hbody, ← hhead, hstart,
          overlay_placed_append, overlay_placed_append]
      · rw [if_neg hlast, hstop fun h => hlast (Run.reachable_parts_iff.mp h).2]
    · rw [if_neg hmiddle, hstop fun h => hmiddle (Run.reachable_parts_iff.mp h).1.2]
      rfl
  · rw [if_neg hfirst, hstop fun h => hfirst (Run.reachable_parts_iff.mp h).1.1]
    rfl

end Packed

namespace Converter

/-- Every access of packing is inside exactly when packing has a value. -/
theorem packRunGuarded_eq (order : ByteOrder) (p : Precision) (scalar : Float) (source : Place)
    {target : Place} (count : Nat) (hsize : target.buffer.length < sizeLimit) :
    packRunGuarded order p scalar source target count =
      Guarded.bounded (packRun order p scalar source target count) := by
  rw [packRunGuarded, packRun]
  by_cases hzero : count = 0
  · rw [if_pos hzero, if_pos hzero]
    rfl
  rw [if_neg hzero, if_neg hzero, Place.items]
  simp only [Option.bind_eq_bind, Option.bind_assoc]
  refine Guarded.bounded_bind fun start _ => Guarded.bounded_bind fun length _ =>
    Guarded.bounded_bind fun items _ => Packed.writeGuarded_eq order hsize _ ?_
  exact List.ne_nil_of_length_pos (by rw [List.length_map, length_chunks]; omega)

end Converter
end SampleStream.Sample
