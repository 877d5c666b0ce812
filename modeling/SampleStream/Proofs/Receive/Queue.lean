import SampleStream.Proofs.Receive.Call

/-!
# One channel as a queue of samples

As long as the link of the only channel carries nothing but packets of samples in
sequence, a receive stream is a queue: what it holds and what is in flight are the
samples still to come (`Channel.queue`), a call takes some from the front, and a
burst ends with a call just if the last sample of the burst is among them
(`recv_inOrder`). Each part of a call takes its part of the queue (`Passes`).
-/

namespace SampleStream.Receive

/-! ## Samples to come -/

/-- A sample on its way to the caller: its bytes on the host, and whether a burst
ends with it. -/
structure Token where
  bytes : Bytes
  endsBurst : Bool

/-- The samples of a packet from one of them on. -/
def sampleTokens (converter : Sample.Converter) (h : Header) (payload : Bytes)
    (samples start : Nat) : List Token :=
  (List.range (samples - start)).map fun k =>
    ⟨converter.sampleAt payload (start + k), h.endOfBurst && start + k + 1 == samples⟩

section
variable (converter : Sample.Converter) (h : Header) (payload : Bytes)

@[simp] theorem length_sampleTokens (samples start : Nat) :
    (sampleTokens converter h payload samples start).length = samples - start := by
  simp [sampleTokens]

theorem sampleTokens_split (samples start n : Nat) :
    sampleTokens converter h payload samples start =
      (sampleTokens converter h payload samples start).take n ++
        sampleTokens converter h payload samples (start + n) := by
  have hrest : sampleTokens converter h payload samples (start + n) =
      (sampleTokens converter h payload samples start).drop n := by
    apply List.ext_getElem
    · simp
      omega
    · intro k _ _
      simp [sampleTokens, Nat.add_assoc]
  rw [hrest, List.take_append_drop]

theorem bytes_take_sampleTokens {samples start n : Nat} (hn : start + n ≤ samples) :
    ((sampleTokens converter h payload samples start).take n).flatMap Token.bytes =
      converter.run payload start n := by
  rw [sampleTokens, ← List.map_take, List.take_range, Nat.min_eq_left (by omega),
    List.flatMap_map]
  rfl

/-- Of the first samples one ends the burst just if they are all that are left. -/
theorem any_take_sampleTokens {samples start n : Nat} (hn : start + n ≤ samples)
    (hstart : start < samples) :
    ((sampleTokens converter h payload samples start).take n).any Token.endsBurst =
      (h.endOfBurst && n == samples - start) := by
  rw [sampleTokens, ← List.map_take, List.take_range, Nat.min_eq_left (by omega), Bool.eq_iff_iff]
  simp only [List.any_map, List.any_eq_true, List.mem_range, Function.comp_apply,
    Bool.and_eq_true, beq_iff_eq]
  constructor
  · rintro ⟨k, hk, hend, hlast⟩
    exact ⟨hend, by omega⟩
  · rintro ⟨hend, hall⟩
    exact ⟨n - 1, by omega, hend, by omega⟩

end

/-- The samples of a packet not yet handed out. -/
def HeldPacket.tokens (converter : Sample.Converter) (p : HeldPacket) : List Token :=
  sampleTokens converter p.header p.payload p.samples p.cursor

/-- The samples of a frame. -/
def Content.tokens (converter : Sample.Converter) (wireItem : Nat) : Content → List Token
  | .samples h payload => sampleTokens converter h payload (payload.length / wireItem) 0
  | _ => []

/-- The samples of frames, one frame after the other. -/
def tokensOf (order : ByteOrder) (wireItem : Nat) (converter : Sample.Converter)
    (frames : List Bytes) : List Token :=
  frames.flatMap fun frame => (contentOf order frame).tokens converter wireItem

/-- The samples that a channel holds or that are in flight to it. -/
def Channel.queue (order : ByteOrder) (wireItem : Nat) (c : Channel) : List Token :=
  (c.held.toList.flatMap fun p => p.tokens c.converter) ++
    tokensOf order wireItem c.converter c.link.frames

theorem Channel.queue_of_held {order : ByteOrder} {wireItem : Nat} {c : Channel} {p : HeldPacket}
    (hp : c.held = some p) :
    c.queue order wireItem =
      p.tokens c.converter ++ tokensOf order wireItem c.converter c.link.frames := by
  simp [queue, hp]

theorem Channel.queue_of_vacant {order : ByteOrder} {wireItem : Nat} {c : Channel}
    (hvacant : c.held = none) :
    c.queue order wireItem = tokensOf order wireItem c.converter c.link.frames := by
  simp [queue, hvacant]

/-! ## Frames in sequence -/

/-- The frames are packets of samples, none of them empty, whose counts go on from
`last` to where `next` follows. -/
inductive InSequence (order : ByteOrder) (wireItem : Nat) :
    Option UInt8 → List Bytes → UInt8 → Prop where
  | nil {last : Option UInt8} {next : UInt8} (hnext : Channel.isGap last next = false) :
    InSequence order wireItem last [] next
  | cons {last : Option UInt8} {frame : Bytes} {rest : List Bytes} {next : UInt8} {h : Header}
    {payload : Bytes} (hcontent : contentOf order frame = .samples h payload)
    (hsome : 0 < payload.length / wireItem) (hcount : Channel.isGap last h.count = false)
    (hrest : InSequence order wireItem (some h.count) rest next) :
    InSequence order wireItem last (frame :: rest) next

theorem InSequence.snoc {order : ByteOrder} {wireItem : Nat} {last : Option UInt8}
    {frames : List Bytes} {frame : Bytes} {h : Header} {payload : Bytes}
    (hframes : InSequence order wireItem last frames h.count)
    (hcontent : contentOf order frame = .samples h payload)
    (hsome : 0 < payload.length / wireItem) :
    InSequence order wireItem last (frames ++ [frame]) (Channel.nextCount h.count) := by
  generalize hnext : h.count = next at hframes
  induction hframes with
  | nil hcount =>
    refine .cons hcontent hsome (hnext ▸ hcount) (.nil ?_)
    simp [Channel.isGap, hnext]
  | cons hcontent' hsome' hcount _ ih => exact .cons hcontent' hsome' hcount (ih hnext)

end SampleStream.Receive

namespace SampleStream.Receiver
open Receive

/-! ## One channel in order -/

/-- The only channel, its sender still there, holds and is sent nothing but packets
in sequence, and no condition is left to report. -/
structure InOrder (r : Receiver) (c : Channel) (next : UInt8) : Prop where
  channels : r.channels = [c]
  pending : r.pending = none
  senderOpen : c.link.senderOpen = true
  held : ∀ p, c.held = some p → p.outOfSequence = false ∧ p.cursor < p.samples
  frames : InSequence r.order r.wireItem c.lastCount c.link.frames next
  reads : c.converter.Reads r.wireItem r.hostItem

/-- The stream took samples from the front of the queue of its channel. -/
structure Passes (r : Receiver) (c : Channel) (out : List Token) (r' : Receiver) (c' : Channel)
    (next : UInt8) : Prop where
  inOrder : r'.InOrder c' next
  queue : c.queue r.order r.wireItem = out ++ c'.queue r.order r.wireItem
  link : c'.link = { c.link with frames := c'.link.frames }
  converter : c'.converter = c.converter
  setup : r'.setup = r.setup

section
variable {r r₁ r' : Receiver} {c c₁ c' : Channel} {next : UInt8} {out out' : List Token}

theorem InOrder.passes (h : r.InOrder c next) : r.Passes c [] r c next :=
  ⟨h, rfl, rfl, rfl, rfl⟩

theorem Passes.trans (h : r.Passes c out r₁ c₁ next) (h' : r₁.Passes c₁ out' r' c' next) :
    r.Passes c (out ++ out') r' c' next where
  inOrder := h'.inOrder
  queue := by
    have hqueue := h'.queue
    rw [order_of_setup h.setup, wireItem_of_setup h.setup] at hqueue
    rw [h.queue, hqueue, List.append_assoc]
  link := by rw [h'.link, h.link]
  converter := h'.converter.trans h.converter
  setup := h'.setup.trans h.setup

theorem InOrder.held_eq (h : r.InOrder c next) : r.held = c.held.toList := by
  rw [Receiver.held, h.channels]
  cases hheld : c.held <;> simp [hheld]

/-! ## Getting a packet -/

/-- A packet agrees with itself about the time, so that no other is needed. -/
theorem alignWithin_of_one {rounds : Nat} {outcome : Outcome}
    (hfill : r.fill (List.range r.channels.length) = some (r₁, .ok none))
    (hone : r₁.held.length ≤ 1)
    (h : r.alignWithin rounds = some (r', outcome)) : r' = r₁ ∧ outcome = .ok none := by
  unfold alignWithin at h
  simp only [hfill, bind, Option.bind_some] at h
  cases hnewest : r₁.newest with
  | none =>
    rw [hnewest] at h
    cases h
    exact ⟨rfl, rfl⟩
  | some time =>
    simp only [hnewest, not_older_of_single hone hnewest, Bool.false_eq_true, if_false] at h
    cases h
    exact ⟨rfl, rfl⟩

theorem fill_one {outcome : Outcome} (hchannels : r.channels = [c]) (hvacant : c.held = none) :
    r.fill (List.range r.channels.length) = some (r', outcome) ↔
      r.fetch 0 c = some (r', outcome) := by
  have hfill : r.fill (List.range r.channels.length) = r.fetch 0 c := by
    rw [hchannels]
    simp only [List.length_singleton, List.range_one, fill, hchannels, List.getElem?_cons_zero,
      hvacant, Option.isSome_none, Bool.false_eq_true, if_false, bind]
    cases hfetch : r.fetch 0 c with
    | none => rfl
    | some answer =>
      obtain ⟨r₂, outcome₂⟩ := answer
      cases outcome₂ with
      | error e => rfl
      | ok found =>
        cases found with
        | none => rfl
        | some found => rfl
  rw [hfill]

/-- The next frame becomes the packet that is held. -/
theorem fetch_inOrder {outcome : Outcome} (h : r.InOrder c next) (hvacant : c.held = none)
    (hfetch : r.fetch 0 c = some (r', outcome)) :
    (outcome = .ok (some { code := .timeout, channel := 0 }) ∧ r' = r ∧ c.link.frames = []) ∨
      (outcome = .ok none ∧ ∃ c' p, c'.held = some p ∧ r.Passes c [] r' c' next) := by
  cases hframes : c.link.frames with
  | nil =>
    have hzero : r.channels[0]? = some c := by rw [h.channels]; rfl
    rcases fetch_of_empty hzero hframes hfetch with hclosed | ⟨rfl, rfl⟩
    · -- only a link without a sender is closed
      simp [fetch, Channel.fetch, Link.recv, hframes, h.senderOpen] at hfetch
      rw [← hfetch.2] at hclosed
      cases hclosed
    · exact .inl ⟨rfl, rfl, rfl⟩
  | cons frame rest =>
    have hin := h.frames
    rw [hframes] at hin
    cases hin with
    | cons hcontent hsome hcount hrest =>
      obtain ⟨found, rfl, htook⟩ := fetch_of_frame hframes hfetch
      obtain ⟨c', fetched, htaken, hchannels, rfl⟩ := htook.channels
      have horder := order_of_setup htook.setup
      have hwire := wireItem_of_setup htook.setup
      -- nothing but samples is on the link, so the frame is a packet
      suffices hpasses : fetched.condition? = none ∧
          ∃ p, c'.held = some p ∧ r.Passes c [] r' c' next from
        .inr ⟨congrArg _ hpasses.1, c', hpasses.2⟩
      cases htaken with
      | unreadable hother => cases hcontent.symm.trans hother
      | report hother => cases hcontent.symm.trans hother
      | samples hsame time =>
        cases hcontent.symm.trans hsame
        refine ⟨rfl, _, rfl, ⟨?_, ?_, rfl, rfl, htook.setup⟩⟩
        · refine ⟨by rw [hchannels, h.channels]; rfl, htook.pending.trans h.pending, h.senderOpen,
            fun p hp => ?_, ?_, ?_⟩
          · cases hp
            exact ⟨hcount, hsome⟩
          · rw [horder, hwire]
            exact hrest
          · rw [hwire, hostItem_of_setup htook.setup]
            exact h.reads
        · rw [Channel.queue_of_vacant hvacant, Channel.queue_of_held rfl, hframes, tokensOf,
            List.flatMap_cons, hcontent]
          rfl

theorem ready_inOrder {outcome : Outcome} (h : r.InOrder c next)
    (hready : r.ready = some (r', outcome)) :
    (outcome = .ok (some { code := .timeout, channel := 0 }) ∧ r' = r ∧
        c.queue r.order r.wireItem = []) ∨
      (outcome = .ok none ∧ ∃ c' p, c'.held = some p ∧ r.Passes c [] r' c' next) := by
  unfold ready at hready
  cases hheld : c.held with
  | some p =>
    simp [h.channels, hheld] at hready
    obtain ⟨rfl, rfl⟩ := hready
    exact .inr ⟨rfl, c, p, hheld, h.passes⟩
  | none =>
    rw [if_pos (by simp [h.channels, hheld]), align] at hready
    cases hfetch : r.fetch 0 c with
    | none =>
      have hfill : r.fill (List.range r.channels.length) = none := by
        cases hfill : r.fill (List.range r.channels.length) with
        | none => rfl
        | some answer =>
          obtain ⟨r₂, outcome₂⟩ := answer
          cases hfetch.symm.trans ((fill_one h.channels hheld).mp hfill)
      unfold alignWithin at hready
      simp [hfill, bind] at hready
    | some answer =>
      obtain ⟨r₂, outcome₂⟩ := answer
      have hfill := (fill_one h.channels hheld).mpr hfetch
      rcases fetch_inOrder h hheld hfetch with ⟨rfl, rfl, hframes⟩ | ⟨rfl, c', p, hp, hpasses⟩
      · unfold alignWithin at hready
        simp only [hfill, bind, Option.bind_some] at hready
        cases hready
        refine .inl ⟨rfl, rfl, ?_⟩
        rw [Channel.queue_of_vacant hheld, hframes, tokensOf, List.flatMap_nil]
      · have hone : r₂.held.length ≤ 1 := by rw [hpasses.inOrder.held_eq, hp]; exact Nat.le_refl 1
        obtain ⟨rfl, rfl⟩ := alignWithin_of_one hfill hone hready
        exact .inr ⟨rfl, c', p, hp, hpasses⟩

/-! ## Handing out -/

theorem advance_one (hchannels : r.channels = [c]) (n : Nat) :
    r.advance n = ({ r with channels := [(c.advance n).1] }, (c.advance n).2) := by
  rw [advance, hchannels]
  cases hused : (c.advance n).2 <;> simp [hused]

/-- The last samples of a packet go, and with them the packet. -/
theorem advance_inOrder_used {p : HeldPacket} (h : r.InOrder c next) (hp : c.held = some p) :
    (∃ c', r.Passes c ((p.tokens c.converter).take p.remaining) (r.advance p.remaining).1 c' next) ∧
      (r.advance p.remaining).2 = some p.header.endOfBurst := by
  have hcursor := (h.held p hp).2
  have hdone : (p.advance p.remaining).remaining = 0 := by
    simp only [HeldPacket.remaining, HeldPacket.advance]
    omega
  have hall : (p.tokens c.converter).take p.remaining = p.tokens c.converter := by
    apply List.take_of_length_le
    rw [HeldPacket.tokens, length_sampleTokens]
    exact Nat.le_refl _
  rw [advance_one h.channels, Channel.advance_of_used hp hdone, hall]
  refine ⟨⟨{ c with held := none }, ⟨?_, ?_, rfl, rfl, rfl⟩⟩, rfl⟩
  · exact ⟨rfl, h.pending, h.senderOpen, fun _ hheld => (by cases hheld), h.frames, h.reads⟩
  · rw [Channel.queue_of_held hp, Channel.queue_of_vacant rfl]

/-- Fewer samples go than the packet has left, and the packet stays. -/
theorem advance_inOrder_left {p : HeldPacket} {n : Nat} (h : r.InOrder c next)
    (hp : c.held = some p) (hn : n < p.remaining) :
    (∃ c', r.Passes c ((p.tokens c.converter).take n) (r.advance n).1 c' next) ∧
      (r.advance n).2 = none := by
  rw [HeldPacket.remaining] at hn
  have hsplit := sampleTokens_split c.converter p.header p.payload p.samples p.cursor n
  have hrest : (p.advance n).remaining ≠ 0 := by
    simp only [HeldPacket.remaining, HeldPacket.advance]
    omega
  rw [advance_one h.channels, Channel.advance_of_left hp hrest]
  refine ⟨⟨{ c with held := some (p.advance n) }, ⟨?_, ?_, rfl, rfl, rfl⟩⟩, rfl⟩
  · refine ⟨rfl, h.pending, h.senderOpen, fun q hq => ?_, h.frames, h.reads⟩
    cases hq
    exact ⟨rfl, Nat.lt_of_sub_ne_zero hrest⟩
  · rw [Channel.queue_of_held hp, Channel.queue_of_held rfl, ← List.append_assoc]
    congr 1

theorem advance_inOrder {p : HeldPacket} {n : Nat} (h : r.InOrder c next) (hp : c.held = some p)
    (hn : n ≤ p.remaining) :
    (∃ c', r.Passes c ((p.tokens c.converter).take n) (r.advance n).1 c' next) ∧
      (r.advance n).2 = if n = p.remaining then some p.header.endOfBurst else none := by
  by_cases hall : n = p.remaining
  · subst hall
    rw [if_pos rfl]
    exact advance_inOrder_used h hp
  · rw [if_neg hall]
    exact advance_inOrder_left h hp (Nat.lt_of_le_of_ne hn hall)

/-- What a call that began at `r` has to show for itself: the samples it took, in
its buffer, and nothing told of them but the end of a burst. -/
structure Gathered (r : Receiver) (c : Channel) (buffer : Bytes) (out : List Token)
    (r' : Receiver) (c' : Channel) (got : Received) (next : UInt8) : Prop where
  passes : r.Passes c out r' c' next
  samples : got.samples = out.length
  buffers : got.buffers = [out.flatMap Token.bytes ++ buffer.drop (got.samples * r.hostItem)]
  outOfSequence : got.metadata.outOfSequence = false
  code : got.metadata.code = .none ∨ got.metadata.code = .timeout
  endOfBurst : got.metadata.endOfBurst = out.any Token.endsBurst

/-- Describing the first samples says nothing of gaps and ends. -/
theorem describeFirst_inOrder {got : Received} {metadata : Metadata} (h : r.InOrder c next)
    (hdescribe : r.describeFirst got = some metadata)
    (hquiet : got.metadata.outOfSequence = false) :
    metadata.outOfSequence = false ∧ metadata.code = got.metadata.code ∧
      metadata.endOfBurst = got.metadata.endOfBurst := by
  have hgap : r.held.any HeldPacket.outOfSequence = false := by
    rw [h.held_eq]
    cases hheld : c.held with
    | none => rfl
    | some p => simp [(h.held p hheld).1]
  unfold describeFirst describe at hdescribe
  split at hdescribe
  · split at hdescribe
    · cases hdescribe
      exact ⟨hquiet, rfl, rfl⟩
    · rename_i p hp
      simp only [hgap, Bool.false_eq_true, if_false] at hdescribe
      split at hdescribe
      · cases hdescribe
        exact ⟨rfl, rfl, rfl⟩
      · simp only [bind, Option.bind_eq_some_iff] at hdescribe
        obtain ⟨time, -, hdescribe⟩ := hdescribe
        cases hdescribe
        exact ⟨rfl, rfl, rfl⟩
  · cases hdescribe
    exact ⟨hquiet, rfl, rfl⟩

end

theorem length_bytes_of_mem_queue {order : ByteOrder} {wireItem wire host : Nat} {c : Channel}
    {t : Token} (hreads : c.converter.Reads wire host) (ht : t ∈ c.queue order wireItem) :
    t.bytes.length = host := by
  have hsample {h : Header} {payload : Bytes} {samples start : Nat}
      (ht : t ∈ sampleTokens c.converter h payload samples start) : t.bytes.length = host := by
    obtain ⟨k, -, rfl⟩ := List.mem_map.mp ht
    exact hreads.length_sampleAt _ _
  rcases List.mem_append.mp ht with hheld | hlink
  · obtain ⟨p, -, hp⟩ := List.mem_flatMap.mp hheld
    exact hsample hp
  · obtain ⟨frame, -, hframe⟩ := List.mem_flatMap.mp hlink
    unfold Content.tokens at hframe
    split at hframe
    · exact hsample hframe
    · cases hframe

namespace Gathered

variable {r₀ r r' : Receiver} {c₀ c c' : Channel} {next : UInt8} {out : List Token}
  {buffer : Bytes} {got : Received}

theorem start (h : r.InOrder c next) (buffer : Bytes) :
    Gathered r c buffer [] r c { buffers := [buffer] } next where
  passes := h.passes
  samples := rfl
  buffers := by simp
  outOfSequence := rfl
  code := .inl rfl
  endOfBurst := rfl

/-- How the device streams is of no account. -/
theorem aside (hg : Gathered r₀ c₀ buffer out r c got next) (mode : Mode) :
    Gathered r₀ c₀ buffer out { r with mode } c got next where
  passes := {
    inOrder := ⟨hg.passes.inOrder.channels, hg.passes.inOrder.pending,
      hg.passes.inOrder.senderOpen, hg.passes.inOrder.held, hg.passes.inOrder.frames,
      hg.passes.inOrder.reads⟩
    queue := hg.passes.queue
    link := hg.passes.link
    converter := hg.passes.converter
    setup := hg.passes.setup }
  samples := hg.samples
  buffers := hg.buffers
  outOfSequence := hg.outOfSequence
  code := hg.code
  endOfBurst := hg.endOfBurst

theorem length_bytes (hg : Gathered r₀ c₀ buffer out r c got next) :
    (out.flatMap Token.bytes).length = got.samples * r₀.hostItem := by
  have hreads := hg.passes.inOrder.reads
  rw [hg.passes.converter, hostItem_of_setup hg.passes.setup] at hreads
  rw [hg.samples]
  refine length_flatMap_of_const fun t ht => ?_
  have hqueue : t ∈ c₀.queue r₀.order r₀.wireItem := by
    rw [hg.passes.queue]
    exact List.mem_append_left _ ht
  exact length_bytes_of_mem_queue hreads hqueue

theorem ready (hg : Gathered r₀ c₀ buffer out r c got next) (hpasses : r.Passes c [] r' c' next) :
    Gathered r₀ c₀ buffer out r' c' got next := by
  have hall := hg.passes.trans hpasses
  rw [List.append_nil] at hall
  exact ⟨hall, hg.samples, hg.buffers, hg.outOfSequence, hg.code, hg.endOfBurst⟩

/-- Handing out samples of the packet held. Whether they end a burst shows in what
is left of the packet, and the metadata has to say so. -/
theorem hand {wanted n : Nat} {p : HeldPacket} {metadata : Metadata} {buffers : List Bytes}
    (hg : Gathered r₀ c₀ buffer out r c got next) (hp : c.held = some p)
    (hhands : r.Hands wanted got n metadata buffers) (hgoing : got.metadata.endOfBurst = false) :
    metadata.endOfBurst = false ∧ ∃ c' out', ∀ m : Metadata,
      m.outOfSequence = metadata.outOfSequence → m.code = metadata.code →
      m.endOfBurst = ((r.advance n).2 == some true) →
      Gathered r₀ c₀ buffer out' (r.advance n).1 c' ⟨got.samples + n, m, buffers⟩ next := by
  have hin := hg.passes.inOrder
  have hcursor := (hin.held p hp).2
  have hmem : p ∈ r.held := by
    rw [hin.held_eq, hp]
    exact List.mem_singleton.mpr rfl
  have hn : n ≤ p.remaining := hhands.count_le p hmem
  have hroom : p.cursor + n ≤ p.samples := by
    rw [HeldPacket.remaining] at hn
    omega
  obtain ⟨⟨c', hpasses⟩, hused⟩ := advance_inOrder hin hp hn
  obtain ⟨hsequence, hcode, hburst⟩ := describeFirst_inOrder hin hhands.described hg.outOfSequence
  have hlength : ((p.tokens c.converter).take n).length = n := by
    rw [List.length_take, HeldPacket.tokens, length_sampleTokens]
    exact Nat.min_eq_left hn
  -- the new samples stand right behind those that were there
  have hbuffers : buffers = [(out ++ (p.tokens c.converter).take n).flatMap Token.bytes ++
      buffer.drop ((got.samples + n) * r₀.hostItem)] := by
    have hone : buffers.length = 1 := by
      rw [length_convert hhands.converted (by rw [hg.buffers, hin.channels]; rfl), hg.buffers]
      rfl
    obtain ⟨only, rfl⟩ := List.length_eq_one_iff.mp hone
    have hzero : r.channels[0]? = some c := by rw [hin.channels]; rfl
    have hreads := hin.reads
    rw [hostItem_of_setup hg.passes.setup] at hreads
    have honly := convert_channel hhands.converted hzero hp hreads
      (by rw [hg.buffers]; rfl) hg.length_bytes
    rw [List.flatMap_append, HeldPacket.tokens, bytes_take_sampleTokens _ _ _ hroom]
    exact congrArg (fun b => [b]) (Option.some.inj honly)
  refine ⟨hburst.trans hgoing, c', out ++ (p.tokens c.converter).take n, fun m hm hm' hend => ?_⟩
  refine ⟨hg.passes.trans hpasses, ?_, hbuffers, hm.trans hsequence, ?_, ?_⟩
  · rw [List.length_append, hlength, hg.samples]
  · rw [hm', hcode]
    exact hg.code
  · rw [hend, List.any_append, ← hg.endOfBurst, hgoing, Bool.false_or, hused, HeldPacket.tokens,
      any_take_sampleTokens _ _ _ hroom hcursor]
    by_cases hall : n = p.remaining
    · rw [if_pos hall, ← HeldPacket.remaining, beq_iff_eq.mpr hall]
      cases p.header.endOfBurst <;> rfl
    · rw [if_neg hall, ← HeldPacket.remaining, beq_eq_false_iff_ne.mpr hall, Bool.and_false]
      rfl

end Gathered

/-! ## Calls -/

/-- Where a call stands after a round. It is over, or it goes on and no burst has
ended. -/
inductive Round.Keeps (r₀ : Receiver) (c₀ : Channel) (buffer : Bytes) (next : UInt8) :
    Round → Prop where
  | done {r : Receiver} {c : Channel} {out : List Token} {got : Received}
    (h : Gathered r₀ c₀ buffer out r c got next) : Keeps r₀ c₀ buffer next (.done (r, .ok got))
  | more {r : Receiver} {c : Channel} {out : List Token} {got : Received}
    (h : Gathered r₀ c₀ buffer out r c got next) (hgoing : got.metadata.endOfBurst = false) :
    Keeps r₀ c₀ buffer next (.more r got)

section
variable {r₀ r r' : Receiver} {c₀ c : Channel} {next : UInt8} {out : List Token}
  {buffer : Bytes} {got : Received} {wanted : Nat} {onePacket : Bool}

theorem handOut_inOrder {p : HeldPacket} {result : Round}
    (hg : Gathered r₀ c₀ buffer out r c got next) (hp : c.held = some p)
    (hgoing : got.metadata.endOfBurst = false)
    (h : r.handOut wanted onePacket got = some result) :
    result.Keeps r₀ c₀ buffer next := by
  have hin := hg.passes.inOrder
  have hheld : r.held = [p] := by rw [hin.held_eq, hp]; rfl
  cases handOut_cases h with
  | nothing hnone => simp [hheld] at hnone
  | gap hsome hgap => simp [hheld, (hin.held p hp).1] at hgap
  | @burst n metadata buffers hhands hused =>
    obtain ⟨-, c', out', hall⟩ := hg.hand hp hhands hgoing
    obtain ⟨mode, hmode⟩ := endBurst_eq (r.advance n).1
    rw [hmode]
    have hdone := hall { metadata with endOfBurst := true } rfl rfl (by rw [hused]; rfl)
    exact .done (hdone.aside mode)
  | @enough n metadata buffers hhands hused hover =>
    obtain ⟨hquiet, c', out', hall⟩ := hg.hand hp hhands hgoing
    exact .done (hall _ (by simp) (by simp)
      (by rw [beq_eq_false_iff_ne.mpr hused, endOfBurst_handedMetadata, hquiet]))
  | @more n metadata buffers hhands hused hone hnogap hwanted =>
    obtain ⟨hquiet, c', out', hall⟩ := hg.hand hp hhands hgoing
    have hend : (handedMetadata (r.advance n).2 metadata).endOfBurst = false := by
      rw [endOfBurst_handedMetadata, hquiet]
    exact .more (hall _ (by simp) (by simp) (by rw [beq_eq_false_iff_ne.mpr hused, hend])) hend

theorem round_inOrder {result : Round} (hg : Gathered r₀ c₀ buffer out r c got next)
    (hgoing : got.metadata.endOfBurst = false)
    (h : r.round wanted onePacket got = some result) : result.Keeps r₀ c₀ buffer next := by
  simp only [round, bind, Option.bind_eq_some_iff] at h
  obtain ⟨⟨r₁, outcome⟩, hready, h⟩ := h
  rcases ready_inOrder hg.passes.inOrder hready with ⟨rfl, rfl, -⟩ | ⟨rfl, c', p, hp, hpasses⟩
  · -- nothing came in time, which is told only when there are no samples
    cases h
    unfold report
    split
    · rename_i hnone
      have hout : out = [] := by rw [← List.length_eq_zero_iff, ← hg.samples, hnone]
      subst hout
      exact .done ⟨hg.passes, hg.samples, hg.buffers, rfl, .inr rfl, rfl⟩
    · exact .done hg
  · exact handOut_inOrder (hg.ready hpasses) hp hgoing h

theorem collect_inOrder {rounds : Nat} {answer : Answer}
    (hg : Gathered r₀ c₀ buffer out r c got next) (hgoing : got.metadata.endOfBurst = false)
    (h : collect wanted onePacket rounds r got = some answer) :
    ∃ c' out' got', answer.2 = .ok got' ∧ Gathered r₀ c₀ buffer out' answer.1 c' got' next := by
  induction rounds generalizing r c got out with
  | zero =>
    cases h
    exact ⟨c, out, got, rfl, hg⟩
  | succ rounds ih =>
    simp only [collect, bind, Option.bind_eq_some_iff] at h
    obtain ⟨result, hround, h⟩ := h
    cases round_inOrder hg hgoing hround with
    | done hg' =>
      cases h
      exact ⟨_, _, _, rfl, hg'⟩
    | more hg' hgoing' => exact ih hg' hgoing' h

/-- A call takes samples from the front of the queue, or it fails for its buffers
and nothing has changed. -/
theorem recv_inOrder {buffers : List Bytes} {result : Except StreamError Received}
    (hin : r.InOrder c next) (h : r.recv buffers wanted onePacket = some (r', result)) :
    (∃ e, result = .error e ∧ e ≠ .linkClosed ∧ r' = r) ∨
      ∃ buffer got c' out, buffers = [buffer] ∧ result = .ok got ∧
        Gathered r c buffer out r' c' got next := by
  unfold recv at h
  simp only [hin.pending] at h
  by_cases hlength : buffers.length ≠ r.channels.length
  · rw [if_pos hlength] at h
    cases h
    exact .inl ⟨_, rfl, nofun, rfl⟩
  · rw [if_neg hlength] at h
    simp only [bind, Option.bind_eq_some_iff] at h
    obtain ⟨need, -, h⟩ := h
    split at h
    · cases h
      exact .inl ⟨_, rfl, nofun, rfl⟩
    · have hone : buffers.length = 1 := by
        rw [hin.channels] at hlength
        exact not_not.mp hlength
      obtain ⟨buffer, rfl⟩ := List.length_eq_one_iff.mp hone
      obtain ⟨c', out, got, hresult, hg⟩ := collect_inOrder (.start hin buffer) rfl h
      exact .inr ⟨buffer, got, c', out, rfl, hresult, hg⟩

end

end SampleStream.Receiver
