import SampleStream.Proofs.Sample.Decode
import SampleStream.Proofs.Packet.RoundTrip
import SampleStream.Sample.Guarded

/-!
# Converting stays inside the buffers

A conversion has a value just if every access on the way stays inside the buffers
(`convertGuarded_eq`), and a conversion from the wire has one as soon as the samples it is
asked for lie in the payload and have room in the host buffer (`convert_of_fits`). For
packed samples, three bytes each in blocks of twelve, that is a fact about the three parts of
a run: of the whole blocks, which end where the samples do or before, and of the blocks at
its ends, of which only the positions count.
-/

namespace SampleStream.Sample

namespace Packed

variable {order : ByteOrder} {data : Bytes}

/-! ## Lanes by position -/

theorem laneAt_take {n k : Nat} (hk : (k / Block.samples + 1) * Block.bytes ≤ n) :
    laneAt order (data.take n) k = laneAt order data k := by
  have hroom : Block.bytes ≤ n - k / Block.samples * Block.bytes := by
    rw [Nat.add_mul] at hk
    omega
  rw [laneAt, List.drop_take, ← read_take order ((data.drop _).take _), List.take_take,
    Nat.min_eq_left hroom, read_take, laneAt]

/-- The lanes at `count` positions from `start` on. -/
def lanesFrom (order : ByteOrder) (data : Bytes) (start count : Nat) : List (IQ Int16) :=
  (List.range' start count).map (laneAt order data)

@[simp] theorem length_lanesFrom (start count : Nat) :
    (lanesFrom order data start count).length = count := by
  simp [lanesFrom]

theorem lanesFrom_eq (start count : Nat) :
    lanesFrom order data start count =
      (List.range count).map fun k => laneAt order data (start + k) := by
  rw [lanesFrom, List.range'_eq_map_range, List.map_map]
  rfl

theorem take_lanesFrom (start count n : Nat) :
    (lanesFrom order data start count).take n = lanesFrom order data start (min n count) := by
  rw [lanesFrom_eq, ← List.map_take, List.take_range, ← lanesFrom_eq]

theorem drop_lanesFrom (start count n : Nat) :
    (lanesFrom order data start count).drop n =
      lanesFrom order data (start + n) (count - n) := by
  rw [lanesFrom, ← List.map_drop, List.drop_range', Nat.mul_one, lanesFrom]

theorem lanesFrom_append (start n more : Nat) :
    lanesFrom order data start n ++ lanesFrom order data (start + n) more =
      lanesFrom order data start (n + more) := by
  rw [lanesFrom, lanesFrom, ← List.map_append, List.range'_append_1, lanesFrom]

theorem blockIn_eq (order : ByteOrder) (data : Bytes) (block : Nat) :
    blockIn order data block =
      Guarded.bounded (if block * Block.bytes + 8 < sizeLimit then
        some (lanesFrom order data (block * Block.samples) Block.samples) else none) := by
  have hlanes : (Block.unpack (Block.read order (data.drop (block * Block.bytes)))).toList =
      lanesFrom order data (block * Block.samples) Block.samples := by
    rw [toList_unpack_read, lanesFrom_eq]
    congr 1
    funext k
    exact laneAt_drop order data block k
  rw [blockIn]
  by_cases hsize : block * Block.bytes + 8 < sizeLimit
  · rw [if_pos hsize, Guarded.bounded_mulSize (by omega), Guarded.ok_bind,
      Guarded.bounded_addSize hsize, Guarded.ok_bind, hlanes]
    rfl
  · rw [if_neg hsize]
    by_cases hbase : block * Block.bytes < sizeLimit
    · rw [Guarded.bounded_mulSize hbase, Guarded.ok_bind, addSize, fitSize, if_neg hsize]
      rfl
    · rw [mulSize, fitSize, if_neg hbase]
      rfl

/-- The bytes of blocks are sliced out just if they lie in the data, whatever the sizes that
are computed for it. -/
theorem slice_blocks_bind {β : Type} {data : Bytes} (hsize : data.length < sizeLimit)
    (block count : Nat) (next : Nat → Bytes → Guarded β) :
    (do
      let start ← Guarded.bounded (mulSize block Block.bytes)
      let size ← Guarded.bounded (mulSize count Block.bytes)
      let source ← Guarded.bounded (slice data start size)
      next start source) =
    if (block + count) * Block.bytes ≤ data.length then
      next (block * Block.bytes) ((data.drop (block * Block.bytes)).take (count * Block.bytes))
    else .error .bounds := by
  rw [Nat.add_mul]
  by_cases hroom : block * Block.bytes + count * Block.bytes ≤ data.length
  · rw [if_pos hroom, Guarded.bounded_mulSize (by omega), Guarded.ok_bind,
      Guarded.bounded_mulSize (by omega), Guarded.ok_bind, Guarded.bounded_slice hroom,
      Guarded.ok_bind]
  · rw [if_neg hroom]
    by_cases hstart : block * Block.bytes < sizeLimit
    · by_cases hlength : count * Block.bytes < sizeLimit
      · rw [Guarded.bounded_mulSize hstart, Guarded.ok_bind, Guarded.bounded_mulSize hlength,
          Guarded.ok_bind, slice, if_neg hroom]
        rfl
      · rw [Guarded.bounded_mulSize hstart, Guarded.ok_bind, mulSize, fitSize, if_neg hlength]
        rfl
    · rw [mulSize, fitSize, if_neg hstart]
      rfl

theorem blocksIn_eq (order : ByteOrder) {data : Bytes} (hsize : data.length < sizeLimit)
    (block count : Nat) :
    blocksIn order data block count =
      Guarded.bounded (if count = 0 ∨ (block + count) * Block.bytes ≤ data.length then
        some (lanesFrom order data (block * Block.samples) (count * Block.samples)) else none) := by
  have hlanes : lanes order count
        ((data.drop (block * Block.bytes)).take (count * Block.bytes)) =
      lanesFrom order data (block * Block.samples) (count * Block.samples) := by
    rw [lanes_eq_map, lanesFrom_eq]
    apply List.map_congr_left
    intro k hk
    have hblock : k / Block.samples + 1 ≤ count := by
      rw [List.mem_range] at hk
      simp only [Block.samples] at hk ⊢
      omega
    rw [laneAt_take (Nat.mul_le_mul_right _ hblock), laneAt_drop]
  rw [blocksIn]
  by_cases hcount : count = 0
  · rw [if_pos hcount, if_pos (.inl hcount), hcount]
    rfl
  rw [if_neg hcount, slice_blocks_bind hsize, hlanes]
  by_cases hroom : (block + count) * Block.bytes ≤ data.length
  · rw [if_pos hroom, if_pos (.inr hroom)]
    rfl
  · rw [if_neg hroom, if_neg (not_or.mpr ⟨hcount, hroom⟩)]
    rfl

theorem headIn_eq (order : ByteOrder) (data : Bytes) (r : Run) :
    headIn order data r =
      Guarded.bounded (if r.skipped = 0 ∨ r.firstBlock * Block.bytes + 8 < sizeLimit then
        some (lanesFrom order data r.start r.headCount) else none) := by
  rw [headIn, Run.headCount]
  by_cases hzero : r.skipped = 0
  · rw [if_pos hzero, if_pos hzero, if_pos (.inl hzero)]
    rfl
  · rw [if_neg hzero, if_neg hzero, blockIn_eq]
    by_cases hsize : r.firstBlock * Block.bytes + 8 < sizeLimit
    · have hstart : r.firstBlock * Block.samples + r.skipped = r.start := by
        simp only [Run.firstBlock, Run.skipped, Block.samples]
        omega
      rw [if_pos hsize, if_pos (.inr hsize), Guarded.bounded_some, Guarded.ok_bind, drop_lanesFrom,
        take_lanesFrom, hstart, Nat.min_comm]
      rfl
    · rw [if_neg hsize, if_neg (not_or.mpr ⟨hzero, hsize⟩)]
      rfl

theorem tailIn_eq (order : ByteOrder) (data : Bytes) {count : Nat} (hcount : count ≤ Block.samples)
    (block : Nat) :
    tailIn order data block count =
      Guarded.bounded (if count = 0 ∨ block * Block.bytes + 8 < sizeLimit then
        some (lanesFrom order data (block * Block.samples) count) else none) := by
  rw [tailIn]
  by_cases hzero : count = 0
  · rw [if_pos hzero, if_pos (.inl hzero), hzero]
    rfl
  · rw [if_neg hzero, blockIn_eq]
    by_cases hsize : block * Block.bytes + 8 < sizeLimit
    · rw [if_pos hsize, if_pos (.inr hsize), Guarded.bounded_some, Guarded.ok_bind, take_lanesFrom,
        Nat.min_eq_left hcount]
      rfl
    · rw [if_neg hsize, if_neg (not_or.mpr ⟨hzero, hsize⟩)]
      rfl

/-! ## The parts of a run -/

theorem Run.headCount_le (r : Run) : r.headCount ≤ r.count := by
  unfold headCount
  split <;> omega

/-- Behind its first part a run goes on at the start of a block, if it goes on. -/
theorem Run.bodyBlock_eq {r : Run} (hrest : r.headCount < r.count) :
    r.bodyBlock * Block.samples = r.start + r.headCount := by
  have hstart : r.start = r.firstBlock * Block.samples + r.skipped := by
    simp only [firstBlock, skipped, Block.samples]
    omega
  have hskipped : r.skipped < Block.samples := Nat.mod_lt _ (by decide)
  rw [bodyBlock]
  by_cases hzero : r.skipped = 0
  · rw [headCount, if_pos hzero, if_pos hzero, hstart, hzero]
    rfl
  · rw [headCount, if_neg hzero] at hrest
    rw [headCount, if_neg hzero, if_neg hzero]
    simp only [Block.samples] at hstart hskipped hrest ⊢
    omega

theorem Run.count_eq (r : Run) :
    r.headCount + r.wholeBlocks * Block.samples + r.tailCount = r.count := by
  have hhead := r.headCount_le
  rw [wholeBlocks, tailCount, Nat.add_assoc, Nat.mul_comm, Nat.div_add_mod]
  omega

/-- The first block ends behind the start of a run. -/
theorem Run.firstBlock_le (r : Run) : r.firstBlock * Block.bytes ≤ r.start * 3 := by
  simp only [firstBlock, Block.samples, Block.bytes]
  omega

/-- The whole blocks end where the samples of the run do or before, if it has any
behind its first part. -/
theorem Run.blocks_le {r : Run} (hrest : r.headCount < r.count) :
    (r.bodyBlock + r.wholeBlocks) * Block.bytes ≤ (r.start + r.count) * 3 := by
  have hbody := bodyBlock_eq hrest
  have hcount := r.count_eq
  simp only [Block.samples, Block.bytes] at hbody hcount ⊢
  omega

theorem Run.headCount_lt {r : Run} (h : r.wholeBlocks ≠ 0 ∨ r.tailCount ≠ 0) :
    r.headCount < r.count := by
  have hcount := r.count_eq
  simp only [Block.samples] at hcount
  omega

/-- The lanes of the three parts of a run, of which each has a reason of its own not to be
read. -/
theorem parts_eq (order : ByteOrder) {data : Bytes} (r : Run) (hsize : data.length < sizeLimit) :
    headIn order data r =
        Guarded.bounded (if r.skipped = 0 ∨ r.firstBlock * Block.bytes + 8 < sizeLimit then
          some (lanesFrom order data r.start r.headCount) else none) ∧
      blocksIn order data r.bodyBlock r.wholeBlocks =
        Guarded.bounded (if r.wholeBlocks = 0 ∨
            (r.bodyBlock + r.wholeBlocks) * Block.bytes ≤ data.length then
          some (lanesFrom order data (r.start + r.headCount) (r.wholeBlocks * Block.samples))
          else none) ∧
      tailIn order data (r.bodyBlock + r.wholeBlocks) r.tailCount =
        Guarded.bounded (if r.tailCount = 0 ∨
            (r.bodyBlock + r.wholeBlocks) * Block.bytes + 8 < sizeLimit then
          some (lanesFrom order data (r.start + (r.headCount + r.wholeBlocks * Block.samples))
            r.tailCount) else none) := by
  refine ⟨headIn_eq order data r, ?_, ?_⟩
  · rw [blocksIn_eq order hsize]
    by_cases hzero : r.wholeBlocks = 0
    · rw [hzero]
      rfl
    · rw [Run.bodyBlock_eq (Run.headCount_lt (.inl hzero))]
  · have htail : r.tailCount < Block.samples := Nat.mod_lt _ (by decide)
    rw [tailIn_eq order data (Nat.le_of_lt htail)]
    by_cases hzero : r.tailCount = 0
    · rw [hzero]
      rfl
    · rw [Nat.add_mul _ _ Block.samples, Run.bodyBlock_eq (Run.headCount_lt (.inr hzero)),
        Nat.add_assoc]

end Packed

namespace Converter

/-! ## Storing sample by sample -/

theorem storeEach_eq {size k : Nat} {window front : Bytes} {items : List Bytes}
    (hfront : front.length = k * size) (hitems : ∀ item ∈ items, item.length = size)
    (hroom : (k + items.length) * size ≤ window.length) :
    storeEach size (splice window 0 front) k items =
      .ok (splice window 0 (front ++ items.flatten)) := by
  -- what is stored so far stands at the front, and each item makes it longer
  induction items generalizing k front with
  | nil => simp [storeEach]
  | cons item rest ih =>
    have hitem : item.length = size := hitems item List.mem_cons_self
    rw [List.length_cons, ← Nat.add_assoc, Nat.add_right_comm] at hroom
    have hnext : (k + 1) * size ≤ window.length :=
      Nat.le_trans (Nat.mul_le_mul_right size (by omega)) hroom
    rw [Nat.add_mul, Nat.one_mul] at hnext
    have hlength : (splice window 0 front).length = window.length :=
      length_splice (by omega)
    rw [storeEach, Guarded.bounded_slice (by omega)]
    change storeEach size (splice (splice window 0 front) (k * size) item) (k + 1) rest = _
    have hsplice := splice_splice (Nat.zero_le window.length) front item
    rw [Nat.zero_add, hfront] at hsplice
    rw [hsplice, ih _ _ hroom, List.flatten_cons, List.append_assoc]
    · rw [List.length_append, hfront, hitem, Nat.add_mul, Nat.one_mul]
    · intro other hother
      exact hitems other (List.mem_cons_of_mem _ hother)

/-! ## Packed samples -/

theorem length_of_mem_storeLanes {p : Precision} {scalar : Float} {lanes : List (IQ Int16)}
    {item : Bytes} (hitem : item ∈ storeLanes p scalar lanes) : item.length = p.sampleBytes := by
  obtain ⟨lane, -, rfl⟩ := List.mem_map.mp hitem
  exact p.length_storeSample _

theorem length_flatten_storeLanes (p : Precision) (scalar : Float) (lanes : List (IQ Int16)) :
    (storeLanes p scalar lanes).flatten.length = lanes.length * p.sampleBytes := by
  rw [storeLanes, ← List.flatMap_def, length_flatMap_of_const fun _ _ => p.length_storeSample _]

/-- Storing the lanes behind those that are stored. -/
theorem storeEach_lanes (order : ByteOrder) (p : Precision) (scalar : Float) (data : Bytes)
    (start : Nat) {window : Bytes} {done more : Nat}
    (hroom : (done + more) * p.sampleBytes ≤ window.length) :
    storeEach p.sampleBytes
        (splice window 0 (storeLanes p scalar (Packed.lanesFrom order data start done)).flatten)
        done (storeLanes p scalar (Packed.lanesFrom order data (start + done) more)) =
      .ok (splice window 0
        (storeLanes p scalar (Packed.lanesFrom order data start (done + more))).flatten) := by
  rw [storeEach_eq _ (fun _ => length_of_mem_storeLanes), ← List.flatten_append,
    ← Packed.lanesFrom_append, storeLanes, storeLanes, ← List.map_append, storeLanes]
  · rw [storeLanes, List.length_map, Packed.length_lanesFrom]
    exact hroom
  · rw [length_flatten_storeLanes, Packed.length_lanesFrom]

/-- The three parts of a run can be stored just if the run can be reached, and what is
stored are its lanes. -/
theorem storeRun_eq (order : ByteOrder) (p : Precision) (scalar : Float) {data window : Bytes}
    {r : Packed.Run} (hsize : data.length < sizeLimit)
    (hwindow : window.length = r.count * p.sampleBytes) :
    storeRun order p scalar data r window =
      Guarded.bounded (if r.reachable 8 data.length then
        some (storeLanes p scalar (Packed.lanesFrom order data r.start r.count)).flatten
        else none) := by
  obtain ⟨hhead, hbody, htail⟩ := Packed.parts_eq order r hsize
  have hcount := r.count_eq
  have hstore (done more : Nat) (hdone : done + more ≤ r.count) :=
    storeEach_lanes order p scalar data r.start
      (hwindow ▸ Nat.mul_le_mul_right p.sampleBytes hdone)
  have hstoreHead := hstore 0 r.headCount (by omega)
  have hstoreBody := hstore r.headCount (r.wholeBlocks * Block.samples) (by omega)
  have hstoreTail := hstore (r.headCount + r.wholeBlocks * Block.samples) r.tailCount (by omega)
  have hempty : splice window 0 (storeLanes p scalar
      (Packed.lanesFrom order data r.start 0)).flatten = window := by
    simp [splice, Packed.lanesFrom, storeLanes]
  have hwhole : (r.count - r.headCount) / Block.samples = r.wholeBlocks := rfl
  have hblocks : r.wholeBlocks * Block.samples / Block.samples = r.wholeBlocks :=
    Nat.mul_div_cancel _ (by decide)
  have hleft : r.count - (r.headCount + r.wholeBlocks * Block.samples) = r.tailCount := by omega
  rw [hempty, Nat.add_zero, Nat.zero_add] at hstoreHead
  have hreach : r.reachable 8 data.length = true ↔
      ((r.skipped = 0 ∨ r.firstBlock * Block.bytes + 8 < sizeLimit) ∧
        (r.wholeBlocks = 0 ∨ (r.bodyBlock + r.wholeBlocks) * Block.bytes ≤ data.length)) ∧
        (r.tailCount = 0 ∨ (r.bodyBlock + r.wholeBlocks) * Block.bytes + 8 < sizeLimit) := by
    simp only [Packed.Run.reachable, Bool.and_eq_true, Bool.or_eq_true, beq_iff_eq,
      decide_eq_true_eq]
  rw [storeRun, hhead]
  by_cases hfirst : r.skipped = 0 ∨ r.firstBlock * Block.bytes + 8 < sizeLimit
  · rw [if_pos hfirst, Guarded.bounded_some, Guarded.ok_bind, hstoreHead, Guarded.ok_bind,
      Packed.length_lanesFrom, Guarded.difference_of_le (by omega), Guarded.ok_bind, hwhole, hbody]
    by_cases hmiddle : r.wholeBlocks = 0 ∨
        (r.bodyBlock + r.wholeBlocks) * Block.bytes ≤ data.length
    · rw [if_pos hmiddle, Guarded.bounded_some, Guarded.ok_bind, hstoreBody, Guarded.ok_bind,
        Packed.length_lanesFrom, Guarded.difference_of_le (by omega), Guarded.ok_bind, hblocks,
        hleft, htail]
      by_cases hlast : r.tailCount = 0 ∨
          (r.bodyBlock + r.wholeBlocks) * Block.bytes + 8 < sizeLimit
      · rw [if_pos hlast, if_pos (hreach.mpr ⟨⟨hfirst, hmiddle⟩, hlast⟩), Guarded.bounded_some,
          Guarded.ok_bind, hstoreTail, hcount]
        -- nothing of the window is left
        have hlength :
            (storeLanes p scalar (Packed.lanesFrom order data r.start r.count)).flatten.length =
              window.length := by
          rw [length_flatten_storeLanes, Packed.length_lanesFrom, hwindow]
        rw [splice, List.take_zero, List.nil_append, Nat.zero_add, hlength, List.drop_length,
          List.append_nil]
        rfl
      · rw [if_neg hlast, if_neg (fun h => hlast (hreach.mp h).2)]
        rfl
    · rw [if_neg hmiddle, if_neg (fun h => hmiddle (hreach.mp h).1.2)]
      rfl
  · rw [if_neg hfirst, if_neg (fun h => hfirst (hreach.mp h).1.1)]
    rfl

/-- Every access of the conversion of packed samples is inside just if the conversion has a
value. -/
theorem unpackRunGuarded_eq (order : ByteOrder) (p : Precision) (scalar : Float)
    {source : Place} (target : Place) (count : Nat) (hsize : source.buffer.length < sizeLimit) :
    unpackRunGuarded order p scalar source target count =
      Guarded.bounded (unpackRun order p scalar source target count) := by
  rw [unpackRunGuarded, unpackRun]
  by_cases hzero : count = 0
  · rw [if_pos hzero, if_pos hzero]
    rfl
  rw [if_neg hzero, if_neg hzero, Place.items]
  simp only [Option.bind_eq_bind, Option.bind_assoc]
  refine Guarded.bounded_bind fun start hstart => Guarded.bounded_bind fun length hlength =>
    Guarded.bounded_bind fun window hwindow => ?_
  obtain ⟨-, rfl⟩ := mulSize_eq_some.mp hstart
  obtain ⟨-, rfl⟩ := mulSize_eq_some.mp hlength
  rw [storeRun_eq order p scalar (r := ⟨source.start, count⟩) hsize (length_of_slice hwindow)]
  by_cases hreach : Packed.Run.reachable ⟨source.start, count⟩ 8 source.buffer.length = true
  · obtain ⟨found, hfound⟩ : ∃ found, Packed.read order source.buffer ⟨source.start, count⟩ =
        some found := ⟨_, if_pos hreach⟩
    rw [if_pos hreach, hfound, Packed.read_eq_map hfound, Guarded.bounded_some, Guarded.ok_bind,
      Packed.lanesFrom_eq, storeLanes, ← List.flatMap_def]
    rfl
  · rw [if_neg hreach, Packed.read, if_neg hreach]
    rfl

/-- No conversion has an access outside but the one for which it has no value. -/
theorem convertGuarded_eq (c : Converter) {source : Place} (target : Place) (count : Nat)
    (hsize : source.buffer.length < sizeLimit) :
    c.convertGuarded source target count = Guarded.bounded (c.convert source target count) := by
  cases c with
  | tabled order table => rfl
  | scaled routine scalar =>
    cases routine with
    | unpackBlocks order p => exact unpackRunGuarded_eq order p scalar target count hsize
    | unpackShorts order host => rfl
    | packShorts order host => rfl
    | packBlocks order p => rfl

/-! ## Conversions -/

theorem Reads.wire_pos {c : Converter} {wire host : Nat} (h : c.Reads wire host) : 0 < wire := by
  cases h <;> decide

theorem Reads.host_pos {c : Converter} {wire host : Nat} (h : c.Reads wire host) : 0 < host := by
  cases h with
  | shorts order host scalar => cases host with
    | real p => cases p <;> decide
    | shorts => decide
  | table => decide
  | blocks order p scalar => cases p <;> decide

/-- Samples that lie in the wire buffer, and have room in the host buffer. -/
structure Fits (wire host : Nat) (source target : Place) (count : Nat) : Prop where
  inside : (source.start + count) * wire ≤ source.buffer.length
  small : source.buffer.length + 8 < sizeLimit
  room : (target.start + count) * host ≤ target.buffer.length
  reach : (target.start + count) * host < sizeLimit

variable {source target : Place} {count : Nat}

theorem items_eq_some {place : Place} {size : Nat}
    (hroom : (place.start + count) * size ≤ place.buffer.length)
    (hsize : (place.start + count) * size < sizeLimit) :
    ∃ items, place.items size count = some items := by
  rw [Nat.add_mul] at hroom hsize
  exact ⟨_, Place.items_eq_some_iff.mpr ⟨by omega, by omega, hroom, rfl⟩⟩

theorem eachItem_eq_some {outSize : Nat} (f : Bytes → Bytes)
    (hfits : Fits 4 outSize source target count) :
    ∃ out, eachItem 4 outSize f source target count = some out := by
  obtain ⟨items, hitems⟩ := items_eq_some hfits.inside
    (Nat.lt_of_le_of_lt hfits.inside (by have := hfits.small; omega))
  obtain ⟨room, hroom⟩ := items_eq_some hfits.room hfits.reach
  refine ⟨target.store outSize ((chunks 4 count items).flatMap f), ?_⟩
  rw [eachItem, hitems]
  change (target.items outSize count >>= _) = _
  rw [hroom]
  rfl

theorem reachable_of_room {r : Packed.Run} {length : Nat}
    (hroom : (r.start + r.count) * 3 ≤ length) (hsize : length + 8 < sizeLimit) :
    r.reachable 8 length = true := by
  have hfirst := r.firstBlock_le
  simp only [Packed.Run.reachable, Bool.and_eq_true, Bool.or_eq_true, beq_iff_eq,
    decide_eq_true_eq]
  refine ⟨⟨.inr (by omega), ?_⟩, ?_⟩
  · by_cases hzero : r.wholeBlocks = 0
    · exact .inl hzero
    · exact .inr (Nat.le_trans (Packed.Run.blocks_le (Packed.Run.headCount_lt (.inl hzero))) hroom)
  · by_cases hzero : r.tailCount = 0
    · exact .inl hzero
    · have hblocks := Packed.Run.blocks_le (Packed.Run.headCount_lt (.inr hzero))
      exact .inr (by omega)

theorem unpackRun_of_reachable (order : ByteOrder) (p : Precision) (scalar : Float)
    (source target : Place) {count : Nat} {room : Bytes}
    (hroom : target.items p.sampleBytes count = some room)
    (hreach : Packed.Run.reachable ⟨source.start, count⟩ 8 source.buffer.length = true) :
    ∃ out, unpackRun order p scalar source target count = some out := by
  rw [unpackRun]
  by_cases hzero : count = 0
  · exact ⟨target.buffer, if_pos hzero⟩
  · rw [if_neg hzero, hroom, Packed.read, if_pos hreach]
    exact ⟨_, rfl⟩

theorem unpackRun_eq_some (order : ByteOrder) (p : Precision) (scalar : Float)
    (hfits : Fits 3 p.sampleBytes source target count) :
    ∃ out, unpackRun order p scalar source target count = some out := by
  obtain ⟨room, hroom⟩ := items_eq_some hfits.room hfits.reach
  exact unpackRun_of_reachable order p scalar source target hroom
    (reachable_of_room hfits.inside hfits.small)

/-- Samples that lie in the wire buffer and have room in the host buffer are
converted, and no access on the way leaves a buffer. -/
theorem convert_of_fits {c : Converter} {wire host : Nat} (hc : c.Reads wire host)
    (hfits : Fits wire host source target count) :
    ∃ out, c.convert source target count = some out ∧
      c.convertGuarded source target count = .ok out := by
  have hsome : ∃ out, c.convert source target count = some out := by
    cases hc with
    | shorts order host scalar => exact eachItem_eq_some _ hfits
    | table order table => exact eachItem_eq_some _ hfits
    | blocks order p scalar => exact unpackRun_eq_some order p scalar hfits
  obtain ⟨out, hout⟩ := hsome
  refine ⟨out, hout, ?_⟩
  rw [convertGuarded_eq c target count (Nat.lt_of_le_of_lt (Nat.le_add_right ..) hfits.small), hout]
  rfl

end Converter
end SampleStream.Sample
