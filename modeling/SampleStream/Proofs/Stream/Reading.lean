import SampleStream.Proofs.Sample.Decode
import SampleStream.Proofs.Sample.Lookup
import SampleStream.Stream.Conversion

/-!
# The converter of a stream

Whatever options a receive stream is set up with, its converter goes from wire
samples of just the size that the stream counts with to host samples of just the
size that it asks room for. Between 16-bit integers on both sides, and between packed
samples and real ones, there is one conversion each way, in the byte order of the
stream.
-/

namespace SampleStream

/-- A computation that succeeds does so in each of its steps. -/
theorem bind_eq_ok {ε α β : Type} {x : Except ε α} {f : α → Except ε β} {b : β} :
    x >>= f = .ok b ↔ ∃ a, x = .ok a ∧ f a = .ok b := by
  cases x with
  | error e => simp [Bind.bind, Except.bind]
  | ok a => simp [Bind.bind, Except.bind]

namespace StreamOptions
open Sample

/-- Another name for an error leaves the results. -/
theorem mapError_eq_ok {ε ε' α : Type} {f : ε → ε'} {result : Except ε α} {a : α} :
    result.mapError f = .ok a ↔ result = .ok a := by
  cases result with
  | error e => exact ⟨nofun, nofun⟩
  | ok b => exact ⟨fun h => congrArg Except.ok (Except.ok.inj h),
      fun h => congrArg Except.ok (Except.ok.inj h)⟩

theorem lookup_eq_ok {α : Type} {result : Except LookupError α} {a : α} :
    lookup result = .ok a ↔ result = .ok a := mapError_eq_ok

theorem setup_eq_ok {α : Type} {result : Except OptionError α} {a : α} :
    setup result = .ok a ↔ result = .ok a := mapError_eq_ok

/-- The parts of a conversion as the registry gives them. -/
theorem checkLinks_eq_ok {α : Type} {o : StreamOptions} {links : List α} {u : Unit}
    (h : o.checkLinks links = .ok u) : links.length = o.channels.length ∧ links ≠ [] := by
  unfold checkLinks at h
  split at h
  · cases h
  · rename_i hcount
    rw [not_or] at hcount
    exact ⟨Decidable.not_not.mp hcount.1, hcount.2⟩

theorem conversion_eq_ok {o : StreamOptions} {settings : Settings} {direction : Direction}
    {c : Conversion} (h : o.conversion settings direction = .ok c) :
    ∃ asked,
      standardRegistry.find (match direction with
        | .receive => .single (wireTag o.wireFormat c.order) o.hostFormat
        | .send => .single o.hostFormat (wireTag o.wireFormat c.order)) asked = .ok c.method ∧
      standardRegistry.itemSize (wireTag o.wireFormat c.order) = .ok c.wireItem ∧
      standardRegistry.itemSize o.hostFormat = .ok c.hostItem := by
  simp only [conversion, bind_eq_ok, lookup_eq_ok] at h
  obtain ⟨order, -, asked, -, method, hmethod, wireItem, hwire, hostItem, hhost, hc⟩ := h
  cases hc
  exact ⟨asked, hmethod, hwire, hhost⟩

theorem wireTag_ne (format : String) (order : ByteOrder) (host : String)
    (h : host.toList.getLast? ≠ some 'e') : wireTag format order ≠ host := by
  intro heq
  exact h (heq ▸ getLast?_wireTag format order)

/-- A listed conversion from the wire goes between items of the sizes of its
formats. -/
theorem reads_of_mem {format host : String} {order order' : ByteOrder} {method : Method}
    {p : Priority}
    (h : (ConversionId.single (wireTag format order) host, method, p) ∈
      standardConversions order') :
    ∃ wire size, standardRegistry.itemSize (wireTag format order) = .ok wire ∧
      standardRegistry.itemSize host = .ok size ∧ (Converter.start method).Reads wire size := by
  simp only [standardConversions, List.mem_cons, Prod.mk.injEq, ConversionId.single,
    ConversionId.mk.injEq, List.not_mem_nil, or_false] at h
  -- conversions to the wire have a host format where this one has a wire tag
  simp only [wireTag_ne format order "fc32" (by decide),
    wireTag_ne format order "fc64" (by decide), wireTag_ne format order "sc16" (by decide),
    false_and, false_or] at h
  rcases h with ⟨⟨hwire, -, hhost, -⟩, rfl, -⟩ | ⟨⟨hwire, -, hhost, -⟩, rfl, -⟩ |
    ⟨⟨hwire, -, hhost, -⟩, rfl, -⟩ | ⟨⟨hwire, -, hhost, -⟩, rfl, -⟩ |
    ⟨⟨hwire, -, hhost, -⟩, rfl, -⟩ | ⟨⟨hwire, -, hhost, -⟩, rfl, -⟩
  · exact ⟨4, 8, by rw [hwire, itemSize_shorts], by rw [hhost, itemSize_fc32],
      .shorts order' (.real .single) _⟩
  · exact ⟨4, 16, by rw [hwire, itemSize_shorts], by rw [hhost, itemSize_fc64],
      .shorts order' (.real .double) _⟩
  · exact ⟨4, 4, by rw [hwire, itemSize_shorts], by rw [hhost, itemSize_sc16],
      .shorts order' .shorts _⟩
  · exact ⟨3, 8, by rw [hwire, itemSize_packed], by rw [hhost, itemSize_fc32],
      .blocks order' .single _⟩
  · exact ⟨3, 16, by rw [hwire, itemSize_packed], by rw [hhost, itemSize_fc64],
      .blocks order' .double _⟩
  · exact ⟨4, 8, by rw [hwire, itemSize_shorts], by rw [hhost, itemSize_fc32],
      .table order' _⟩

theorem reads_of_conversion {o : StreamOptions} {settings : Settings} {c : Conversion}
    (h : o.conversion settings .receive = .ok c) :
    (Converter.start c.method).Reads c.wireItem c.hostItem := by
  obtain ⟨asked, hfind, hwire, hhost⟩ := conversion_eq_ok h
  obtain ⟨order, p, hmem⟩ := mem_standardConversions_of_find hfind
  obtain ⟨wire, size, hwire', hhost', hreads⟩ := reads_of_mem hmem
  cases hwire.symm.trans hwire'
  cases hhost.symm.trans hhost'
  exact hreads

/-! ## Integers on both sides -/

theorem unpackShorts_of_mem {order order' : ByteOrder} {method : Method} {p : Priority}
    (h : (ConversionId.single (wireTag "sc16" order) "sc16", method, p) ∈
      standardConversions order') : method = .compute (.unpackShorts order .shorts) := by
  cases order <;> cases order' <;>
    simp [standardConversions, ConversionId.single, wireTag, ByteOrder.suffix] at h ⊢ <;>
    exact h.1

theorem packShorts_of_mem {order order' : ByteOrder} {method : Method} {p : Priority}
    (h : (ConversionId.single "sc16" (wireTag "sc16" order), method, p) ∈
      standardConversions order') : method = .compute (.packShorts order .shorts) := by
  cases order <;> cases order' <;>
    simp [standardConversions, ConversionId.single, wireTag, ByteOrder.suffix] at h ⊢ <;>
    exact h.1

/-- The conversion between 16-bit integers. -/
theorem conversion_shorts {o : StreamOptions} {settings : Settings} {direction : Direction}
    {c : Conversion} (hhost : o.hostFormat = "sc16") (hwire : o.wireFormat = "sc16")
    (h : o.conversion settings direction = .ok c) :
    c.wireItem = 4 ∧ c.hostItem = 4 ∧ c.method = .compute (match direction with
      | .receive => .unpackShorts c.order .shorts
      | .send => .packShorts c.order .shorts) := by
  obtain ⟨asked, hfind, hwireItem, hhostItem⟩ := conversion_eq_ok h
  rw [hwire, itemSize_shorts] at hwireItem
  rw [hhost, itemSize_sc16] at hhostItem
  obtain ⟨order, p, hmem⟩ := mem_standardConversions_of_find hfind
  rw [hhost, hwire] at hmem
  refine ⟨(Except.ok.inj hwireItem).symm, (Except.ok.inj hhostItem).symm, ?_⟩
  cases direction with
  | receive => exact unpackShorts_of_mem hmem
  | send => exact packShorts_of_mem hmem

/-! ## Packed samples -/

/-- The host format with real components. -/
def hostTag : Precision → String
  | .single => "fc32"
  | .double => "fc64"

theorem itemSize_hostTag (p : Precision) :
    standardRegistry.itemSize (hostTag p) = .ok p.sampleBytes := by
  cases p <;> rfl

theorem unpackBlocks_of_mem {order order' : ByteOrder} {method : Method} {p : Precision}
    {priority : Priority}
    (h : (ConversionId.single (wireTag "sc12" order) (hostTag p), method, priority) ∈
      standardConversions order') : method = .compute (.unpackBlocks order p) := by
  cases order <;> cases order' <;> cases p <;>
    simp [standardConversions, ConversionId.single, wireTag, ByteOrder.suffix, hostTag] at h ⊢ <;>
    exact h.1

theorem packBlocks_of_mem {order order' : ByteOrder} {method : Method} {p : Precision}
    {priority : Priority}
    (h : (ConversionId.single (hostTag p) (wireTag "sc12" order), method, priority) ∈
      standardConversions order') : method = .compute (.packBlocks order p) := by
  cases order <;> cases order' <;> cases p <;>
    simp [standardConversions, ConversionId.single, wireTag, ByteOrder.suffix, hostTag] at h ⊢ <;>
    exact h.1

/-- The conversion between packed and real samples. -/
theorem conversion_packed {o : StreamOptions} {settings : Settings} {direction : Direction}
    {c : Conversion} {p : Precision} (hhost : o.hostFormat = hostTag p)
    (hwire : o.wireFormat = "sc12") (h : o.conversion settings direction = .ok c) :
    c.wireItem = 3 ∧ c.hostItem = p.sampleBytes ∧ c.method = .compute (match direction with
      | .receive => .unpackBlocks c.order p
      | .send => .packBlocks c.order p) := by
  obtain ⟨asked, hfind, hwireItem, hhostItem⟩ := conversion_eq_ok h
  rw [hwire, itemSize_packed] at hwireItem
  rw [hhost, itemSize_hostTag] at hhostItem
  obtain ⟨order, priority, hmem⟩ := mem_standardConversions_of_find hfind
  rw [hhost, hwire] at hmem
  refine ⟨(Except.ok.inj hwireItem).symm, (Except.ok.inj hhostItem).symm, ?_⟩
  cases direction with
  | receive => exact unpackBlocks_of_mem hmem
  | send => exact packBlocks_of_mem hmem

end StreamOptions
end SampleStream
