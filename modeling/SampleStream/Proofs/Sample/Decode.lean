import SampleStream.Sample.Converter

/-!
# Wire samples one by one

A conversion from the wire is the concatenation of what single samples come to,
whatever run of samples it is asked for. `Converter.sampleAt` gives the host bytes
of one wire sample; `convert_eq_splice` says that converting a run writes just
these, one after the other, and nothing else. Where a run starts and how long it
is does therefore not show in the samples.
-/

namespace SampleStream

/-! ## Pieces by position -/

theorem chunks_eq_map {α : Type} (size count : Nat) (xs : List α) :
    chunks size count xs = (List.range count).map fun k => (xs.drop (k * size)).take size := by
  induction count generalizing xs with
  | zero => rfl
  | succ count ih =>
    rw [chunks_succ, ih, List.range_succ_eq_map, List.map_cons, List.map_map]
    congr 1
    · simp
    · apply List.map_congr_left
      intro k _
      simp only [Function.comp_apply, List.drop_drop]
      rw [show size + k * size = (k + 1) * size by rw [Nat.add_mul, Nat.one_mul, Nat.add_comm]]

/-- A piece of a run that starts at `start` is a piece of the whole. -/
theorem take_drop_run {α : Type} (xs : List α) {start size count k : Nat} (hk : k < count) :
    ((((xs.drop (start * size)).take (count * size)).drop (k * size)).take size) =
      (xs.drop ((start + k) * size)).take size := by
  have hroom : size ≤ count * size - k * size := by
    rw [← Nat.sub_mul]
    exact Nat.le_mul_of_pos_left size (by omega)
  rw [List.drop_take, List.take_take, List.drop_drop, Nat.min_eq_left hroom, Nat.add_mul]

theorem length_flatMap_of_const {α β : Type} {f : α → List β} {size : Nat} {l : List α}
    (hf : ∀ a ∈ l, (f a).length = size) : (l.flatMap f).length = l.length * size := by
  rw [List.length_flatMap, List.map_congr_left hf, List.map_const', List.sum_replicate_nat]

namespace ByteOrder

/-- A word is read from its own four bytes. -/
theorem word_take (order : ByteOrder) (bytes : Bytes) {count : Nat} (h : 4 ≤ count) :
    order.word (bytes.take count) = order.word bytes := by
  have hfront : ((bytes.take count) ++ [0, 0, 0, 0]).take 4 = (bytes ++ [0, 0, 0, 0]).take 4 := by
    by_cases hlen : bytes.length ≤ count
    · rw [List.take_of_length_le hlen]
    · rw [List.take_append_of_le_length (by simp; omega), List.take_take, Nat.min_eq_left h,
        List.take_append_of_le_length (by omega)]
  rw [word, hfront, word]

theorem wordAt_take (order : ByteOrder) (bytes : Bytes) {count k : Nat}
    (h : 4 * (k + 1) ≤ count) : order.wordAt (bytes.take count) k = order.wordAt bytes k := by
  rw [wordAt, List.drop_take, word_take order _ (by omega), wordAt]

end ByteOrder

namespace Sample

/-! ## Packed samples -/

namespace Packed

/-- The lane of a packed sample. Blocks follow each other from the front of `data`
on, and bytes past its end count as zero. -/
def laneAt (order : ByteOrder) (data : Bytes) (k : Nat) : IQ Int16 :=
  (Block.unpack (Block.read order (data.drop (k / Block.samples * Block.bytes)))).get
    ⟨k % Block.samples, Nat.mod_lt k (by decide)⟩

theorem read_take (order : ByteOrder) (data : Bytes) :
    Block.read order (data.take Block.bytes) = Block.read order data := by
  have hword (k : Nat) (hk : k < 3) :
      order.wordAt (data.take Block.bytes) k = order.wordAt data k :=
    order.wordAt_take data (by simp [Block.bytes]; omega)
  rw [Block.read, hword 0 (by decide), hword 1 (by decide), hword 2 (by decide), Block.read]

/-- Samples of later blocks are those of the data from there on. -/
theorem laneAt_drop (order : ByteOrder) (data : Bytes) (block k : Nat) :
    laneAt order (data.drop (block * Block.bytes)) k =
      laneAt order data (block * Block.samples + k) := by
  have hblock : (block * Block.samples + k) / Block.samples = block + k / Block.samples := by
    simp only [Block.samples]
    omega
  have hlane : (block * Block.samples + k) % Block.samples = k % Block.samples := by
    simp only [Block.samples]
    omega
  simp only [laneAt, List.drop_drop, hblock, hlane, Nat.add_mul]

/-- The lanes of the first block, by position. -/
theorem toList_unpack_read (order : ByteOrder) (data : Bytes) :
    (Block.unpack (Block.read order data)).toList =
      (List.range Block.samples).map (laneAt order data) := by
  apply List.ext_getElem
  · simp [Block.samples]
  · intro k hk _
    have hlt : k < Block.samples := by simpa [Block.samples] using hk
    simp only [Vector.getElem_toList, List.getElem_map, List.getElem_range, laneAt,
      Nat.div_eq_of_lt hlt, Nat.mod_eq_of_lt hlt, Nat.zero_mul, List.drop_zero]
    rfl

theorem lanes_eq_map (order : ByteOrder) (count : Nat) (data : Bytes) :
    lanes order count data = (List.range (count * Block.samples)).map (laneAt order data) := by
  induction count generalizing data with
  | zero => simp [lanes]
  | succ count ih =>
    have hrest : lanes order (count + 1) data =
        (Block.unpack (Block.read order (data.take Block.bytes))).toList ++
          lanes order count (data.drop Block.bytes) := by
      simp [lanes]
    have hshift (k : Nat) : laneAt order (data.drop Block.bytes) k =
        laneAt order data (Block.samples + k) := by
      simpa using laneAt_drop order data 1 k
    rw [hrest, ih, read_take, toList_unpack_read,
      show (count + 1) * Block.samples = Block.samples + count * Block.samples by
        rw [Nat.add_mul, Nat.one_mul, Nat.add_comm],
      List.range_add, List.map_append, List.map_map]
    congr 1
    apply List.map_congr_left
    intro k _
    exact hshift k

/-- Reading a run gives the lanes at its positions. -/
theorem read_eq_map {order : ByteOrder} {data : Bytes} {r : Run} {found : List (IQ Int16)}
    (h : read order data r = some found) :
    found = (List.range r.count).map fun k => laneAt order data (r.start + k) := by
  unfold read at h
  split at h
  · cases h
    have hlong : r.skipped + r.count ≤ r.blocks * Block.samples := by
      simp only [Run.blocks, Run.skipped, Block.samples]
      omega
    have hstart : r.firstBlock * Block.samples + r.skipped = r.start := by
      simp only [Run.firstBlock, Run.skipped, Block.samples]
      omega
    have hsplit : r.blocks * Block.samples =
        r.skipped + (r.count + (r.blocks * Block.samples - (r.skipped + r.count))) := by omega
    rw [lanes_eq_map, hsplit, List.range_add, List.map_append,
      List.drop_left' (by simp), List.range_add, List.map_append, List.map_append,
      List.take_left' (by simp), List.map_map]
    apply List.map_congr_left
    intro k _
    rw [Function.comp_apply, laneAt_drop, ← Nat.add_assoc, hstart]
  · cases h

end Packed

/-! ## One sample -/

theorem HostFormat.length_store (host : HostFormat) (scalar : Float) (s : IQ Int16) :
    (host.store scalar s).length = host.bytes := by
  cases host with
  | real p => exact p.length_storeSample _
  | shorts => simp [store, storeShorts, bytes]

theorem Table.length_store (table : Table) (w : UInt32) : (table.store w).length = 8 := by
  simp [store]

namespace Converter

/-- The host bytes of one wire sample: the one with index `k` in `payload`.
Converters that go the other way read no wire samples. -/
def sampleAt (c : Converter) (payload : Bytes) (k : Nat) : Bytes :=
  match c with
  | .scaled (.unpackShorts order host) scalar =>
    host.store scalar (splitWord (order.wordAt payload k))
  | .tabled order table => table.get.store (order.wordAt payload k)
  | .scaled (.unpackBlocks order p) scalar =>
    p.storeSample ((Packed.laneAt order payload k).scaled scalar)
  | .scaled (.packShorts ..) _ | .scaled (.packBlocks ..) _ => []

/-- A converter goes from wire samples of `wire` bytes to host samples of `host`
bytes. -/
inductive Reads : Converter → Nat → Nat → Prop where
  | shorts (order : ByteOrder) (host : HostFormat) (scalar : Float) :
    Reads (.scaled (.unpackShorts order host) scalar) 4 host.bytes
  | table (order : ByteOrder) (table : Thunk Table) : Reads (.tabled order table) 4 8
  | blocks (order : ByteOrder) (p : Precision) (scalar : Float) :
    Reads (.scaled (.unpackBlocks order p) scalar) 3 p.sampleBytes

variable {c : Converter} {wire host : Nat}

theorem Reads.length_sampleAt (h : c.Reads wire host) (payload : Bytes) (k : Nat) :
    (c.sampleAt payload k).length = host := by
  cases h with
  | shorts order host scalar => exact host.length_store _ _
  | table order table => exact table.get.length_store _
  | blocks order p scalar => exact p.length_storeSample _

theorem Reads.setScalar (h : c.Reads wire host) (scalar : Float) :
    (c.setScalar scalar).Reads wire host := by
  cases h with
  | shorts order host _ => exact .shorts order host scalar
  | table order _ => exact .table order _
  | blocks order p _ => exact .blocks order p _

/-- The host bytes of a run of wire samples. -/
def run (c : Converter) (payload : Bytes) (start count : Nat) : Bytes :=
  (List.range count).flatMap fun k => c.sampleAt payload (start + k)

theorem Reads.length_run (h : c.Reads wire host) (payload : Bytes) (start count : Nat) :
    (c.run payload start count).length = count * host := by
  rw [run, length_flatMap_of_const fun _ _ => h.length_sampleAt .., List.length_range]

theorem run_add (c : Converter) (payload : Bytes) (start n m : Nat) :
    c.run payload start (n + m) = c.run payload start n ++ c.run payload (start + n) m := by
  rw [run, List.range_add, List.flatMap_append, List.flatMap_map, run, run]
  simp only [Nat.add_assoc]

/-- A sample of a run stands between the samples before it and those behind it. -/
theorem run_around (c : Converter) (payload : Bytes) (start k m : Nat) :
    c.run payload start (k + m + 1) = c.run payload start k ++
      (c.sampleAt payload (start + k) ++ c.run payload (start + k + 1) m) := by
  have hone : c.run payload (start + k) 1 = c.sampleAt payload (start + k) := by simp [run]
  rw [Nat.add_assoc, Nat.add_comm m, run_add, run_add, hone]

/-! ## Runs of samples -/

theorem Place.items_eq_some_iff {place : Place} {size count : Nat} {items : Bytes} :
    place.items size count = some items ↔
      place.start * size < sizeLimit ∧ count * size < sizeLimit ∧
        place.start * size + count * size ≤ place.buffer.length ∧
        (place.buffer.drop (place.start * size)).take (count * size) = items := by
  simp only [Place.items, Option.bind_eq_bind, Option.bind_eq_some_iff, mulSize_eq_some,
    slice_eq_some]
  constructor
  · rintro ⟨first, ⟨hfirst, rfl⟩, len, ⟨hlen, rfl⟩, hroom, hitems⟩
    exact ⟨hfirst, hlen, hroom, hitems⟩
  · rintro ⟨hfirst, hlen, hroom, hitems⟩
    exact ⟨_, ⟨hfirst, rfl⟩, _, ⟨hlen, rfl⟩, hroom, hitems⟩

theorem eachItem_eq_splice {outSize : Nat} {f : Bytes → Bytes} {source target : Place}
    {count : Nat} {out : Bytes} (g : Nat → Bytes)
    (hf : ∀ k, f ((source.buffer.drop (k * 4)).take 4) = g k)
    (h : eachItem 4 outSize f source target count = some out) :
    out = splice target.buffer (target.start * outSize)
      ((List.range count).flatMap fun k => g (source.start + k)) := by
  simp only [eachItem, Option.bind_eq_bind, Option.bind_eq_some_iff, Option.pure_def,
    Option.some.injEq] at h
  obtain ⟨items, hitems, room, hroom, rfl⟩ := h
  obtain ⟨-, -, -, rfl⟩ := Place.items_eq_some_iff.mp hitems
  rw [Place.store, chunks_eq_map, List.flatMap_def, List.map_map, List.flatMap_def]
  congr 2
  apply List.map_congr_left
  intro k hk
  rw [Function.comp_apply, take_drop_run source.buffer (List.mem_range.mp hk), hf]

theorem unpackRun_eq_splice {order : ByteOrder} {p : Precision} {scalar : Float}
    {source target : Place} {count : Nat} {out : Bytes}
    (h : unpackRun order p scalar source target count = some out) :
    out = splice target.buffer (target.start * p.sampleBytes)
      ((List.range count).flatMap fun k =>
        p.storeSample ((Packed.laneAt order source.buffer (source.start + k)).scaled scalar)) := by
  unfold unpackRun at h
  split at h
  · rename_i hzero
    cases h
    simp [hzero, splice]
  · simp only [Option.bind_eq_bind, Option.bind_eq_some_iff, Option.pure_def,
      Option.some.injEq] at h
    obtain ⟨_, _, lanes, hlanes, rfl⟩ := h
    rw [Place.store, Packed.read_eq_map hlanes, List.flatMap_map]

/-- Converting a run of wire samples writes the samples of the run one after the
other and leaves the rest of the buffer as it is. -/
theorem convert_eq_splice (hc : c.Reads wire host) {source target : Place} {count : Nat}
    {out : Bytes} (h : c.convert source target count = some out) :
    out = splice target.buffer (target.start * host)
      (c.run source.buffer source.start count) := by
  have hword (order : ByteOrder) (k : Nat) :
      order.word ((source.buffer.drop (k * 4)).take 4) = order.wordAt source.buffer k := by
    rw [order.word_take _ (Nat.le_refl 4), Nat.mul_comm, ByteOrder.wordAt]
  cases hc with
  | shorts order host scalar =>
    exact eachItem_eq_splice (fun k => host.store scalar (splitWord (order.wordAt source.buffer k)))
      (fun k => by rw [hword]) h
  | table order table =>
    exact eachItem_eq_splice (fun k => table.get.store (order.wordAt source.buffer k))
      (fun k => by rw [hword]) h
  | blocks order p scalar => exact unpackRun_eq_splice h

end Converter
end Sample
end SampleStream
