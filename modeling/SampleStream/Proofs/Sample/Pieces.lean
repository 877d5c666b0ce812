import SampleStream.Proofs.Sample.Bounds
import SampleStream.Proofs.Sample.Overlay

/-!
# Converting in pieces

A run of samples may be converted in two calls, the second going on where the first one
stopped, and what is left in the buffer is the same as after one call (`convert_append`).
For packed samples the cut may fall inside a block. What is a whole block of the run is
then patched in parts, from buffers that hold it, and a block that reaches past the buffer
does so in the parts as well (`Run.reachable_within`).
-/

namespace SampleStream.Sample

/-! ## Runs in runs -/

namespace Packed

/-- The run has samples in a block. -/
def Run.Touches (r : Run) (block : Nat) : Prop :=
  r.start < (block + 1) * Block.samples ∧ block * Block.samples < r.start + r.count

/-- All samples of a block are of the run. -/
def Run.Owns (r : Run) (block : Nat) : Prop :=
  r.start ≤ block * Block.samples ∧ (block + 1) * Block.samples ≤ r.start + r.count

theorem Run.head_cases (r : Run) :
    (r.skipped = 0 ∧ r.headCount = 0 ∧ r.bodyBlock = r.firstBlock) ∨
      (r.skipped ≠ 0 ∧ r.headCount = min (Block.samples - r.skipped) r.count ∧
        r.bodyBlock = r.firstBlock + 1) := by
  by_cases hzero : r.skipped = 0
  · exact .inl ⟨hzero, if_pos hzero, by rw [bodyBlock, if_pos hzero, Nat.add_zero]⟩
  · exact .inr ⟨hzero, if_neg hzero, by rw [bodyBlock, if_neg hzero]⟩

/-- A run can be reached when each of its blocks can: those that it owns lie inside, the
positions in the others are sizes. -/
theorem Run.reachable_iff {r : Run} {reach length : Nat} (hcount : 0 < r.count) :
    r.reachable reach length = true ↔ ∀ block, r.Touches block →
      (r.Owns block → (block + 1) * Block.bytes ≤ length) ∧
        (¬ r.Owns block → block * Block.bytes + reach < sizeLimit) := by
  have hstart : r.start = r.firstBlock * 4 + r.skipped := by
    simp only [firstBlock, skipped, Block.samples]
    omega
  have hskipped : r.skipped < 4 := Nat.mod_lt _ (by decide)
  have htail : r.tailCount < 4 := Nat.mod_lt _ (by decide)
  have hparts := r.count_eq
  have hhead := r.head_cases
  simp only [reachable, Bool.and_eq_true, Bool.or_eq_true, beq_iff_eq, decide_eq_true_eq, Touches,
    Owns]
  simp only [Block.samples, Block.bytes] at *
  generalize sizeLimit = limit
  constructor
  · rintro ⟨⟨hfirst, hwhole⟩, hlast⟩ block ⟨hbegin, hend⟩
    constructor
    · omega
    · omega
  · intro h
    refine ⟨⟨?_, ?_⟩, ?_⟩
    · have hblock := h r.firstBlock
      omega
    · have hblock := h (r.bodyBlock + r.wholeBlocks - 1)
      omega
    · have hblock := h (r.bodyBlock + r.wholeBlocks)
      omega

/-- Where a run can be reached, so can a run inside it. -/
theorem Run.reachable_within {r s : Run} {reach length : Nat}
    (h : r.reachable reach length = true) (hreach : reach ≤ Block.bytes)
    (hsize : length < sizeLimit) (hcount : 0 < s.count) (hstart : r.start ≤ s.start)
    (hend : s.start + s.count ≤ r.start + r.count) : s.reachable reach length = true := by
  rw [reachable_iff (by omega)] at h
  rw [reachable_iff hcount]
  rintro block ⟨hbefore, hafter⟩
  obtain ⟨hown, hpart⟩ := h block ⟨by omega, by omega⟩
  refine ⟨fun ⟨hfirst, hlast⟩ => hown ⟨by omega, by omega⟩, fun _ => ?_⟩
  by_cases howns : r.Owns block
  · have hinside := hown howns
    rw [Nat.add_mul] at hinside
    omega
  · exact hpart howns

theorem write_of_reachable (order : ByteOrder) (data : Bytes) (start : Nat)
    (samples : List (IQ Int16))
    (h : Run.reachable ⟨start, samples.length⟩ Block.bytes data.length = true) :
    ∃ out, write order data start samples = some out := ⟨_, if_pos h⟩

theorem reachable_of_write {order : ByteOrder} {data out : Bytes} {start : Nat}
    {samples : List (IQ Int16)} (h : write order data start samples = some out) :
    Run.reachable ⟨start, samples.length⟩ Block.bytes data.length = true := by
  unfold write at h
  dsimp only at h
  split at h
  · assumption
  · cases h

theorem reachable_of_read {order : ByteOrder} {data : Bytes} {r : Run} {found : List (IQ Int16)}
    (h : read order data r = some found) : r.reachable 8 data.length = true := by
  unfold read at h
  split at h
  · assumption
  · cases h

/-- The samples of a run are those of its second part, and where there are none those of
the first. -/
theorem placed_append (start : Nat) (front more : List (IQ Int16)) (k : Nat) :
    (placed start (front ++ more))[k]?.join =
      (placed (start + front.length) more)[k]?.join.or (placed start front)[k]?.join := by
  have hlength : (placed start front).length = start + front.length := by simp [placed]
  have hsplit : placed start (front ++ more) = placed start front ++ more.map some := by
    rw [placed, List.map_append, ← List.append_assoc, ← placed]
  rw [hsplit]
  rcases Nat.lt_or_ge k (start + front.length) with hlt | hge
  · have hnothing : (placed (start + front.length) more)[k]?.join = none := by
      rw [placed, List.getElem?_append_left (by rwa [List.length_replicate]),
        List.getElem?_replicate, if_pos hlt]
      rfl
    rw [List.getElem?_append_left (by rwa [hlength]), hnothing, Option.none_or]
  · have hpast : (placed start front)[k]?.join = none := by
      rw [List.getElem?_eq_none (by rwa [hlength])]
      rfl
    rw [hpast, Option.or_none, List.getElem?_append_right (by rwa [hlength]), hlength, placed,
      List.getElem?_append_right (by rwa [List.length_replicate]), List.length_replicate]

/-- What a run of samples comes to is written by its two parts. -/
theorem write_append {order : ByteOrder} {data out : Bytes} {start : Nat}
    {front more : List (IQ Int16)} (hfront : front ≠ []) (hmore : more ≠ [])
    (hsize : data.length < sizeLimit) (h : write order data start (front ++ more) = some out) :
    ∃ mid, write order data start front = some mid ∧
      write order mid (start + front.length) more = some out := by
  have hfrontPos := List.length_pos_iff.mpr hfront
  have hmorePos := List.length_pos_iff.mpr hmore
  have hreach := reachable_of_write h
  rw [List.length_append] at hreach
  obtain ⟨mid, hmid⟩ := write_of_reachable order data start front
    (Run.reachable_within hreach (Nat.le_refl _) hsize hfrontPos (Nat.le_refl _)
      (by dsimp only; omega))
  have hlength := length_write hmid
  obtain ⟨out', hout'⟩ := write_of_reachable order mid (start + front.length) more
    (hlength ▸ Run.reachable_within hreach (Nat.le_refl _) hsize hmorePos (by dsimp only; omega)
      (by dsimp only; omega))
  have hlong : data.length ≤ data.length * Block.bytes := Nat.le_mul_of_pos_right _ (by decide)
  have hlong' : mid.length ≤ data.length * Block.bytes := by rwa [hlength]
  have hsame : out' = out := by
    rw [write_eq_overlay hout' hlong', write_eq_overlay hmid hlong,
      overlay_overlay _ _ (placed_append start front more), ← write_eq_overlay h hlong]
  exact ⟨mid, hmid, hsame ▸ hout'⟩

end Packed

/-! ## Conversions in two -/

namespace Converter

variable {source target : Place} {n m : Nat} {out : Bytes}

theorem Place.items_append {place : Place} {size : Nat} {items : Bytes}
    (hsize : place.buffer.length < sizeLimit) (h : place.items size (n + m) = some items) :
    place.items size n = some (items.take (n * size)) ∧
      (Place.mk place.buffer (place.start + n)).items size m = some (items.drop (n * size)) := by
  obtain ⟨hfirst, -, hroom, rfl⟩ := Place.items_eq_some_iff.mp h
  rw [Nat.add_mul] at hroom
  refine ⟨Place.items_eq_some_iff.mpr ⟨hfirst, by omega, by omega, ?_⟩,
    Place.items_eq_some_iff.mpr ⟨?_, by omega, ?_, ?_⟩⟩
  · rw [List.take_take, Nat.add_mul, Nat.min_eq_left (Nat.le_add_right ..)]
  · rw [Nat.add_mul]
    omega
  · rw [Nat.add_mul]
    dsimp only
    omega
  · rw [List.drop_take, List.drop_drop, Nat.add_mul, Nat.add_mul, Nat.add_sub_cancel_left]

/-- Room in a buffer is room in any other of its length. -/
theorem Place.items_of_length {buffer buffer' items : Bytes} {start size count : Nat}
    (hlength : buffer'.length = buffer.length)
    (h : (Place.mk buffer start).items size count = some items) :
    ∃ items', (Place.mk buffer' start).items size count = some items' := by
  obtain ⟨hfirst, hlen, hroom, -⟩ := Place.items_eq_some_iff.mp h
  exact ⟨_, Place.items_eq_some_iff.mpr ⟨hfirst, hlen, hlength ▸ hroom, rfl⟩⟩

theorem chunks_append {α : Type} (size : Nat) (xs : List α) :
    chunks size (n + m) xs =
      chunks size n (xs.take (n * size)) ++ chunks size m (xs.drop (n * size)) := by
  induction n generalizing xs with
  | zero => simp
  | succ n ih =>
    have hfirst : (xs.take ((n + 1) * size)).take size = xs.take size := by
      rw [List.take_take, Nat.add_mul, Nat.one_mul, Nat.min_eq_left (Nat.le_add_left ..)]
    have hrest : (xs.take ((n + 1) * size)).drop size = (xs.drop size).take (n * size) := by
      rw [List.drop_take, Nat.add_mul, Nat.one_mul, Nat.add_sub_cancel]
    rw [Nat.add_right_comm, chunks_succ, ih, chunks_succ, hfirst, hrest, List.cons_append,
      List.drop_drop, Nat.add_mul, Nat.one_mul, Nat.add_comm size]

theorem eachItem_append {inSize outSize : Nat} {f : Bytes → Bytes}
    (hf : ∀ bytes, (f bytes).length = outSize) (hsource : source.buffer.length < sizeLimit)
    (htarget : target.buffer.length < sizeLimit)
    (h : eachItem inSize outSize f source target (n + m) = some out) :
    ∃ mid, eachItem inSize outSize f source target n = some mid ∧
      eachItem inSize outSize f ⟨source.buffer, source.start + n⟩ ⟨mid, target.start + n⟩ m =
        some out := by
  simp only [eachItem, Option.bind_eq_bind, Option.bind_eq_some_iff, Option.pure_def,
    Option.some.injEq] at h
  obtain ⟨items, hitems, room, hroom, rfl⟩ := h
  obtain ⟨hfront, hmore⟩ := Place.items_append hsource hitems
  obtain ⟨hfrontRoom, hmoreRoom⟩ := Place.items_append htarget hroom
  generalize hwritten : (chunks inSize n (items.take (n * inSize))).flatMap f = written
  have hlength : written.length = n * outSize := by
    rw [← hwritten, length_flatMap_of_const fun bytes _ => hf bytes, length_chunks]
  obtain ⟨room', hroom'⟩ :=
    Place.items_of_length (length_store hfrontRoom hlength) hmoreRoom
  have hinside : target.start * outSize ≤ target.buffer.length := by
    obtain ⟨-, -, hle, -⟩ := Place.items_eq_some_iff.mp hroom
    omega
  have hstore : (Place.mk (target.store outSize written) (target.start + n)).store outSize
        ((chunks inSize m (items.drop (n * inSize))).flatMap f) =
      target.store outSize ((chunks inSize (n + m) items).flatMap f) := by
    simp only [Place.store]
    rw [Nat.add_mul, ← hlength, splice_splice hinside, chunks_append, List.flatMap_append, hwritten]
  refine ⟨target.store outSize written, ?_, ?_⟩
  · simp only [eachItem, hfront, hfrontRoom, hwritten, Option.bind_eq_bind, Option.bind_some,
      Option.pure_def]
  · simp only [eachItem, hmore, hroom', hstore, Option.bind_eq_bind, Option.bind_some,
      Option.pure_def]

theorem unpackRun_append {order : ByteOrder} {p : Precision} {scalar : Float}
    (hsource : source.buffer.length < sizeLimit) (htarget : target.buffer.length < sizeLimit)
    (h : unpackRun order p scalar source target (n + m) = some out) :
    ∃ mid, unpackRun order p scalar source target n = some mid ∧
      unpackRun order p scalar ⟨source.buffer, source.start + n⟩ ⟨mid, target.start + n⟩ m =
        some out := by
  by_cases hn : n = 0
  · subst hn
    rw [Nat.zero_add] at h
    exact ⟨target.buffer, rfl, h⟩
  by_cases hm : m = 0
  · subst hm
    exact ⟨out, h, rfl⟩
  have hparts := h
  rw [unpackRun, if_neg (by omega)] at hparts
  simp only [Option.bind_eq_bind, Option.bind_eq_some_iff] at hparts
  obtain ⟨room, hroom, lanes, hlanes, -⟩ := hparts
  have hreach := Packed.reachable_of_read hlanes
  obtain ⟨hfrontRoom, hmoreRoom⟩ := Place.items_append htarget hroom
  obtain ⟨mid, hmid⟩ := unpackRun_of_reachable order p scalar source target hfrontRoom
    (Packed.Run.reachable_within hreach (by decide) hsource (by dsimp only; omega) (Nat.le_refl _)
      (by dsimp only; omega))
  have hlength : mid.length = target.buffer.length :=
    length_convert (c := .scaled (.unpackBlocks order p) scalar) hmid
  obtain ⟨room', hroom'⟩ := Place.items_of_length hlength hmoreRoom
  obtain ⟨out', hout'⟩ := unpackRun_of_reachable order p scalar
    ⟨source.buffer, source.start + n⟩ ⟨mid, target.start + n⟩ hroom'
    (Packed.Run.reachable_within hreach (by decide) hsource (by dsimp only; omega)
      (by dsimp only; omega) (by dsimp only; omega))
  have hsame : out' = out := by
    have hblocks := Reads.blocks order p scalar
    have hwritten := hblocks.length_run source.buffer source.start n
    have hinside : target.start * p.sampleBytes ≤ target.buffer.length := by
      obtain ⟨-, -, hle, -⟩ := Place.items_eq_some_iff.mp hroom
      omega
    rw [convert_eq_splice hblocks hout', convert_eq_splice hblocks hmid,
      convert_eq_splice hblocks h, run_add, Nat.add_mul, ← hwritten, splice_splice hinside]
  exact ⟨mid, hmid, hsame ▸ hout'⟩

theorem packRun_append {order : ByteOrder} {p : Precision} {scalar : Float}
    (hsource : source.buffer.length < sizeLimit) (htarget : target.buffer.length < sizeLimit)
    (h : packRun order p scalar source target (n + m) = some out) :
    ∃ mid, packRun order p scalar source target n = some mid ∧
      packRun order p scalar ⟨source.buffer, source.start + n⟩ ⟨mid, target.start + n⟩ m =
        some out := by
  by_cases hn : n = 0
  · subst hn
    rw [Nat.zero_add] at h
    exact ⟨target.buffer, rfl, h⟩
  by_cases hm : m = 0
  · subst hm
    exact ⟨out, h, rfl⟩
  rw [packRun, if_neg (by omega)] at h
  simp only [Option.bind_eq_bind, Option.bind_eq_some_iff] at h
  obtain ⟨items, hitems, hwrite⟩ := h
  obtain ⟨hfront, hmore⟩ := Place.items_append hsource hitems
  rw [chunks_append, List.map_append] at hwrite
  obtain ⟨mid, hmid, hout⟩ := Packed.write_append
    (List.ne_nil_of_length_pos (by rw [List.length_map, length_chunks]; omega))
    (List.ne_nil_of_length_pos (by rw [List.length_map, length_chunks]; omega)) htarget hwrite
  rw [List.length_map, length_chunks] at hout
  refine ⟨mid, ?_, ?_⟩
  · simp only [packRun, if_neg hn, hfront, Option.bind_eq_bind, Option.bind_some, hmid]
  · simp only [packRun, if_neg hm, hmore, Option.bind_eq_bind, Option.bind_some, hout]

/-- Converting in two calls, the second where the first one stopped, has a value where one
call for all of the samples has, and the same one. A buffer's length is a size. -/
theorem convert_append (c : Converter) {source target out : Bytes} {i o n m : Nat}
    (hsource : source.length < sizeLimit) (htarget : target.length < sizeLimit)
    (h : c.convert ⟨source, i⟩ ⟨target, o⟩ (n + m) = some out) :
    ∃ mid, c.convert ⟨source, i⟩ ⟨target, o⟩ n = some mid ∧
      c.convert ⟨source, i + n⟩ ⟨mid, o + n⟩ m = some out := by
  cases c with
  | tabled order table =>
    exact eachItem_append (fun _ => table.get.length_store _) hsource htarget h
  | scaled routine scalar =>
    cases routine with
    | unpackShorts order host =>
      exact eachItem_append (fun _ => host.length_store _ _) hsource htarget h
    | packShorts order host =>
      exact eachItem_append (fun _ => order.length_wordBytes _) hsource htarget h
    | unpackBlocks order p => exact unpackRun_append hsource htarget h
    | packBlocks order p => exact packRun_append hsource htarget h

/-- Three samples are packed behind the first one of a block whose last word is missing,
with a cut after the first of them. -/
theorem convert_append_inside_block :
    let c := Converter.scaled (.packBlocks .big .single) (Real.ofNat 2047)
    let source : Bytes := [0, 0, 0x80, 0x3f, 0, 0, 0x80, 0xbf, 0, 0, 0, 0x3f, 0, 0, 0, 0xbf,
      0, 0, 0, 0, 0, 0, 0x80, 0x3f]
    let target : Bytes := [0x12, 0x34, 0x56, 0x78, 0x9a, 0xbc, 0xde, 0xf0]
    ∃ mid out, c.convert ⟨source, 0⟩ ⟨target, 1⟩ 3 = some out ∧
      c.convert ⟨source, 0⟩ ⟨target, 1⟩ 1 = some mid ∧
      c.convert ⟨source, 1⟩ ⟨mid, 2⟩ 2 = some out := by
  intro c source target
  have hsome : (c.convert ⟨source, 0⟩ ⟨target, 1⟩ 3).isSome = true := by decide +kernel
  obtain ⟨out, hout⟩ := Option.isSome_iff_exists.mp hsome
  obtain ⟨mid, hmid, hrest⟩ := convert_append c (n := 1) (m := 2) (by decide) (by decide) hout
  exact ⟨mid, out, hout, hmid, hrest⟩

end Converter
end SampleStream.Sample
