import Mathlib.Algebra.Order.BigOperators.Group.List
import Mathlib.Algebra.Order.Group.Nat
import Mathlib.Data.List.Forall2
import SampleStream.Proofs.Receive.Together

/-!
# The least common time

The packets to come on each channel are the one it holds and those in flight behind it.
Where their times ascend and some time stands on all channels, bringing the channels to a
common time finds the least such time. The newest packet held is never newer than that, so
what a round drops is older, and each round drops at least one packet. Main statement:
`align_finds_least`.
-/

namespace SampleStream.Receive

/-! ## Packets to come -/

/-- The time that a packet of samples carries. -/
def Content.stamp : Content → Option UInt64
  | samples h _ => h.fractionalTime
  | unreadable | report _ => none

namespace Channel

/-- The times of the packets to come, the packet that is held first. What is no packet of
samples, or one without a time, has none. -/
def stamps (order : ByteOrder) (c : Channel) : List (Option UInt64) :=
  c.held.toList.map (fun p => p.header.fractionalTime) ++
    c.link.frames.map fun frame => (contentOf order frame).stamp

theorem stamps_of_held (order : ByteOrder) {c : Channel} {p : HeldPacket} (hp : c.held = some p) :
    c.stamps order =
      p.header.fractionalTime :: c.link.frames.map fun frame => (contentOf order frame).stamp := by
  rw [stamps, hp]
  rfl

theorem stamps_of_vacant (order : ByteOrder) {c : Channel} (hvacant : c.held = none) :
    c.stamps order = c.link.frames.map fun frame => (contentOf order frame).stamp := by
  rw [stamps, hvacant]
  rfl

/-- The packet that the channel holds and those in `frames` are older than a time. -/
structure OlderThan (order : ByteOrder) (t : UInt64) (c : Channel) (frames : List Bytes) :
    Prop where
  held : ∀ p, c.held = some p → ∃ s < t, p.header.fractionalTime = some s
  frames : ∀ frame ∈ frames, ∃ s < t, (contentOf order frame).stamp = some s

/-- If a frame is stamped `t` or earlier, its time is in range. -/
def FrameInRange (order : ByteOrder) (tickRate : Float) (t : UInt64) (frame : Bytes) : Prop :=
  ∀ s ≤ t, (contentOf order frame).stamp = some s →
    ∃ time, Timestamp.ofTicks s.toInt64.toInt tickRate = some time

instance (order : ByteOrder) (tickRate : Float) (t : UInt64) (frame : Bytes) :
    Decidable (FrameInRange order tickRate t frame) :=
  decidable_of_iff
    ((contentOf order frame).stamp.all fun s =>
      s ≤ t → (Timestamp.ofTicks s.toInt64.toInt tickRate).isSome) <| by
    simp only [FrameInRange, Option.all_eq_true, decide_eq_true_eq, Option.isSome_iff_exists]
    exact forall_congr' fun s => forall_comm

/-- The last count of the channel after frames. -/
def countBehind (order : ByteOrder) (c : Channel) (frames : List Bytes) : Option UInt8 :=
  frames.foldl (fun last frame => (contentOf order frame).countAfter last) c.lastCount

/-- The channel with the packet of samples that came after the frames `older`, and with
nothing in flight but what came behind it. -/
def holding (order : ByteOrder) (wireItem : Nat) (c : Channel) (older rest : List Bytes)
    (h : Header) (payload : Bytes) (time : Option Time) : Channel :=
  { c.left rest with
    lastCount := some h.count
    held := some {
      header := h, payload, samples := payload.length / wireItem, time
      outOfSequence := isGap (c.countBehind order older) h.count } }

/-- The channel on the way to a time: as it was, or past packets that are older and holding
the one behind them, or none yet. -/
inductive Nears (order : ByteOrder) (wireItem : Nat) (tickRate : Float) (t : UInt64)
    (c : Channel) : Channel → Prop where
  | start : Nears order wireItem tickRate t c c
  | vacant {older rest : List Bytes} (hframes : c.link.frames = older ++ rest)
    (holder : c.OlderThan order t older) :
    Nears order wireItem tickRate t c
      { c.left rest with lastCount := c.countBehind order older, held := none }
  | holding {older rest : List Bytes} {frame : Bytes} {h : Header} {payload : Bytes}
    {time : Option Time} (hframes : c.link.frames = older ++ frame :: rest)
    (holder : c.OlderThan order t older) (hcontent : contentOf order frame = .samples h payload)
    (htime : packetTime h tickRate = some time) :
    Nears order wireItem tickRate t c (c.holding order wireItem older rest h payload time)

/-- The channel holds its packet with the time `t`: the one that it held before, or the one
that came behind packets that are all older. Nothing is taken off the link behind it. -/
inductive Finds (order : ByteOrder) (wireItem : Nat) (tickRate : Float) (t : UInt64)
    (c : Channel) : Channel → Prop where
  | held {p : HeldPacket} (hheld : c.held = some p) (htime : p.header.fractionalTime = some t) :
    Finds order wireItem tickRate t c c
  | taken {older rest : List Bytes} {frame : Bytes} {h : Header} {payload : Bytes}
    {time : Option Time} (hframes : c.link.frames = older ++ frame :: rest)
    (holder : c.OlderThan order t older) (hcontent : contentOf order frame = .samples h payload)
    (hstamp : h.fractionalTime = some t) (htime : packetTime h tickRate = some time) :
    Finds order wireItem tickRate t c (c.holding order wireItem older rest h payload time)

variable {order : ByteOrder} {wireItem index : Nat} {tickRate : Float} {t : UInt64}
  {c c' : Channel}

/-! ## Steps of one channel -/

theorem fetch_of_samples {frame : Bytes} {rest : List Bytes} {h : Header} {payload : Bytes}
    (hlink : c.link.frames = frame :: rest)
    (hcontent : contentOf order frame = .samples h payload) :
    c.fetch index order wireItem tickRate = (packetTime h tickRate).map fun time =>
      .ok (c.holding order wireItem [] rest h payload time,
        .packet (isGap c.lastCount h.count)) := by
  have hrecv : c.link.recv = .ok (some (frame, { c.link with frames := rest })) := by
    rw [Link.recv, hlink]
  unfold contentOf at hcontent
  split at hcontent
  · cases hcontent
  · rename_i hdr extent hunpack
    split at hcontent
    · cases hcontent
    · rename_i own hpayload
      split at hcontent
      · cases hcontent
      · rename_i hclass
        cases hcontent
        simp only [fetch, hrecv, hunpack, hpayload, if_neg hclass, bind, pure]
        cases packetTime h tickRate <;> rfl

/-- A channel that holds nothing and takes a packet is as near as before. -/
theorem Nears.took {frame : Bytes} {rest : List Bytes} {h : Header} {payload : Bytes}
    {time : Option Time} (hnears : Nears order wireItem tickRate t c c') (hvacant : c'.held = none)
    (hlink : c'.link.frames = frame :: rest) (hcontent : contentOf order frame = .samples h payload)
    (htime : packetTime h tickRate = some time) :
    Nears order wireItem tickRate t c (c'.holding order wireItem [] rest h payload time) := by
  cases hnears with
  | start =>
    have hnothing : c.OlderThan order t [] := ⟨fun p hp => by simp [hvacant] at hp, by simp⟩
    exact .holding hlink hnothing hcontent htime
  | vacant hframes holder =>
    dsimp only [left] at hlink
    subst hlink
    exact .holding hframes holder hcontent htime
  | holding => cases hvacant

/-- A channel that drops a packet older than `t` is as near as before. -/
theorem Nears.dropped {p : HeldPacket} {s : UInt64} (hnears : Nears order wireItem tickRate t c c')
    (hheld : c'.held = some p) (hstamp : p.header.fractionalTime = some s) (hs : s < t) :
    Nears order wireItem tickRate t c { c' with held := none } := by
  cases hnears with
  | start =>
    have holder : c.OlderThan order t [] := by
      refine ⟨fun q hq => ?_, by simp⟩
      cases hheld.symm.trans hq
      exact ⟨s, hs, hstamp⟩
    exact .vacant (List.nil_append c.link.frames).symm holder
  | vacant => cases hheld
  | @holding older rest frame h payload time hframes holder hcontent htime =>
    cases hheld
    have holder' : c.OlderThan order t (older ++ [frame]) := by
      refine ⟨holder.held, fun f hf => ?_⟩
      rcases List.mem_append.mp hf with hf | hf
      · exact holder.frames f hf
      · obtain rfl := List.mem_singleton.mp hf
        exact ⟨s, hs, by rw [hcontent]; exact hstamp⟩
    have hcount : c.countBehind order (older ++ [frame]) = some h.count := by
      rw [countBehind, List.foldl_append, List.foldl_cons, List.foldl_nil, hcontent]
      rfl
    have hframes' : c.link.frames = older ++ [frame] ++ rest := by
      rw [hframes, List.append_assoc, List.singleton_append]
    have hvacant : Nears order wireItem tickRate t c _ := .vacant hframes' holder'
    rw [hcount] at hvacant
    exact hvacant

theorem Nears.finds {p : HeldPacket} (hnears : Nears order wireItem tickRate t c c')
    (hheld : c'.held = some p) (hstamp : p.header.fractionalTime = some t) :
    Finds order wireItem tickRate t c c' := by
  cases hnears with
  | start => exact .held hheld hstamp
  | vacant => cases hheld
  | holding hframes holder hcontent htime =>
    cases hheld
    exact .taken hframes holder hcontent hstamp htime

end Channel
end SampleStream.Receive

namespace SampleStream.Receiver
open Receive

variable {r r₀ r' : Receiver} {t : UInt64}

/-! ## Times to come -/

/-- The times of the packets to come on every channel. -/
def stamps (r : Receiver) : List (List (Option UInt64)) := r.channels.map (Channel.stamps r.order)

/-- The times to come ascend on every channel, and `t` is the least one of those that stand
on all of them. -/
structure Meets (r : Receiver) (t : UInt64) : Prop where
  ascending : ∀ q ∈ r.stamps, ∃ times : List UInt64, q = times.map some ∧ times.Pairwise (· < ·)
  common : ∀ q ∈ r.stamps, some t ∈ q
  least : ∀ s, (∀ q ∈ r.stamps, some s ∈ q) → t ≤ s

/-- How many packets to come are older than `t`, on all channels. -/
def older (r : Receiver) (t : UInt64) : Nat :=
  (r.stamps.map fun q => q.countP fun s => s.any (· < t)).sum

/-- The times of the packets in flight that are stamped `t` or earlier are in range. -/
def InRange (r : Receiver) (t : UInt64) : Prop :=
  ∀ c ∈ r.channels, ∀ frame ∈ c.link.frames, Channel.FrameInRange r.order r.tickRate t frame

instance (r : Receiver) (t : UInt64) : Decidable (r.InRange t) :=
  inferInstanceAs (Decidable (∀ c ∈ r.channels, ∀ frame ∈ c.link.frames,
    Channel.FrameInRange r.order r.tickRate t frame))

/-- What comes next on a channel is not behind `t`, and `t` is still to come if that is
older. -/
theorem Meets.head (h : r.Meets t) {s : Option UInt64} {rest : List (Option UInt64)}
    (hq : s :: rest ∈ r.stamps) :
    ∃ own ≤ t, s = some own ∧ (own < t → some t ∈ rest) ∧
      ∀ later, some later ∈ rest → own < later := by
  obtain ⟨times, htimes, hascending⟩ := h.ascending _ hq
  obtain ⟨own, later, rfl, rfl, rfl⟩ := List.map_eq_cons_iff.mp htimes.symm
  obtain ⟨hfirst, -⟩ := List.pairwise_cons.mp hascending
  have hmem := h.common _ hq
  rw [List.mem_cons, Option.some.injEq] at hmem
  have hlater : ∀ u, some u ∈ later.map some → own < u := fun u hu => by
    obtain ⟨v, hv, hsame⟩ := List.mem_map.mp hu
    cases hsame
    exact hfirst _ hv
  rcases hmem with rfl | hmem
  · exact ⟨_, UInt64.le_refl _, rfl, fun hlt => absurd hlt (UInt64.lt_irrefl _), hlater⟩
  · exact ⟨own, UInt64.le_of_lt (hlater t hmem), rfl, fun _ => hmem, hlater⟩

/-! ## On the way -/

/-- The stream on the way to the time `t`: nothing but its channels and markers is another,
every channel is nearer or as near, and what was taken has a time in range. -/
structure Nearing (r₀ : Receiver) (t : UInt64) (r : Receiver) : Prop where
  same : ∃ channels markers, r = { r₀ with channels, markers }
  length : r.channels.length = r₀.channels.length
  nears : ∀ (index : Nat) (c₀ c : Channel), r₀.channels[index]? = some c₀ →
    r.channels[index]? = some c → c₀.Nears r₀.order r₀.wireItem r₀.tickRate t c
  meets : r.Meets t
  inRange : r.InRange t ↔ r₀.InRange t

theorem Meets.congr (h : r.Meets t) (hstamps : r'.stamps = r.stamps) : r'.Meets t :=
  ⟨hstamps ▸ h.ascending, hstamps ▸ h.common, hstamps ▸ h.least⟩

/-- A channel that holds nothing has a packet in flight that is stamped `t` or earlier. -/
theorem Meets.inFlight (h : r.Meets t) {c : Channel} (hc : c ∈ r.channels)
    (hvacant : c.held = none) :
    ∃ frame rest hdr payload, ∃ own ≤ t, c.link.frames = frame :: rest ∧
      contentOf r.order frame = .samples hdr payload ∧ hdr.fractionalTime = some own := by
  have hq : c.stamps r.order ∈ r.stamps := List.mem_map_of_mem hc
  rw [c.stamps_of_vacant r.order hvacant] at hq
  cases hframes : c.link.frames with
  | nil =>
    rw [hframes] at hq
    exact absurd (h.common _ hq) List.not_mem_nil
  | cons frame rest =>
    rw [hframes, List.map_cons] at hq
    obtain ⟨own, hown, hstamp, -⟩ := h.head hq
    cases hcontent : contentOf r.order frame with
    | samples hdr payload =>
      rw [hcontent] at hstamp
      exact ⟨frame, rest, hdr, payload, own, hown, rfl, hcontent, hstamp⟩
    | unreadable =>
      rw [hcontent] at hstamp
      cases hstamp
    | report code =>
      rw [hcontent] at hstamp
      cases hstamp

theorem fetch_of_samples {index : Nat} {c : Channel} {frame : Bytes} {rest : List Bytes}
    {h : Header} {payload : Bytes} (hlink : c.link.frames = frame :: rest)
    (hcontent : contentOf r.order frame = .samples h payload) :
    r.fetch index c = (Channel.packetTime h r.tickRate).map fun time =>
      ({ r with
        channels := r.channels.set index (c.holding r.order r.wireItem [] rest h payload time)
        markers := r.markers ++ if Channel.isGap c.lastCount h.count then [.dropped] else [] },
        .ok none) := by
  rw [fetch, Channel.fetch_of_samples hlink hcontent]
  cases Channel.packetTime h r.tickRate <;> rfl

/-- A channel in another's place, on whose link as much is in range. -/
theorem inRange_set {channels : List Channel} {markers markers' : List Marker} {index : Nat}
    {c c' : Channel} (hc : channels[index]? = some c)
    (hsame : (∀ frame ∈ c'.link.frames, Channel.FrameInRange r₀.order r₀.tickRate t frame) ↔
      ∀ frame ∈ c.link.frames, Channel.FrameInRange r₀.order r₀.tickRate t frame) :
    InRange { r₀ with channels := channels.set index c', markers := markers' } t ↔
      InRange { r₀ with channels, markers } t := by
  have hmap := map_set_of_eq (fun d : Channel =>
    ∀ frame ∈ d.link.frames, Channel.FrameInRange r₀.order r₀.tickRate t frame) hc (propext hsame)
  rw [InRange, InRange, ← List.forall_mem_map (P := fun p : Prop => p), hmap, List.forall_mem_map]

/-- A channel that holds nothing takes the packet that comes next, if the time of that is in
range. -/
theorem Nearing.fetch (h : Nearing r₀ t r) {index : Nat} {c : Channel}
    (hc : r.channels[index]? = some c) (hvacant : c.held = none) :
    (∃ r' c', r.fetch index c = some (r', .ok none) ∧ Nearing r₀ t r' ∧ r'.stamps = r.stamps ∧
        r'.channels = r.channels.set index c' ∧ c'.held.isSome) ∨
      (r.fetch index c = none ∧ ¬ r₀.InRange t) := by
  have hmem : c ∈ r.channels := List.mem_of_getElem? hc
  obtain ⟨frame, rest, hdr, payload, own, hown, hframes, hcontent, hstamp⟩ :=
    h.meets.inFlight hmem hvacant
  have hcontentStamp : (contentOf r.order frame).stamp = some own := by
    rw [hcontent]
    exact hstamp
  have hpacket : Channel.packetTime hdr r.tickRate =
      (Timestamp.ofTicks own.toInt64.toInt r.tickRate).map some := by
    rw [Channel.packetTime, hstamp]
    rfl
  rw [fetch_of_samples hframes hcontent]
  cases hticks : Timestamp.ofTicks own.toInt64.toInt r.tickRate with
  | none =>
    refine .inr ⟨by rw [hpacket, hticks]; rfl, fun hrange => ?_⟩
    obtain ⟨time, htime⟩ := h.inRange.mpr hrange c hmem frame (by simp [hframes]) own hown
      hcontentStamp
    rw [hticks] at htime
    cases htime
  | some time =>
    rw [hticks] at hpacket
    -- the packet stands at the front of what is to come, in flight or held
    obtain ⟨channels, markers, rfl⟩ := h.same
    generalize hholding : c.holding r₀.order r₀.wireItem [] rest hdr payload (some time) = c'
    have hstamps : c'.stamps r₀.order = c.stamps r₀.order := by
      rw [← hholding, c.stamps_of_vacant _ hvacant, hframes, List.map_cons, hcontentStamp, ← hstamp]
      rfl
    have hset : (channels.set index c').map (Channel.stamps r₀.order) =
        channels.map (Channel.stamps r₀.order) := map_set_of_eq _ hc hstamps
    refine .inl ⟨{ r₀ with
      channels := channels.set index c'
      markers := markers ++ if Channel.isGap c.lastCount hdr.count then [.dropped] else [] }, c',
      by rw [hpacket, ← hholding]; rfl, ?_, hset, rfl, by rw [← hholding]; rfl⟩
    refine ⟨⟨_, _, rfl⟩, ?_, ?_, h.meets.congr hset, ?_⟩
    · rw [List.length_set]
      exact h.length
    · intro j c₀ d hc₀ hd
      dsimp only at hd
      by_cases hj : index = j
      · subst hj
        obtain ⟨hlt, -⟩ := List.getElem?_eq_some_iff.mp hc
        rw [List.getElem?_set_self hlt] at hd
        cases hd
        rw [← hholding]
        exact (h.nears index c₀ c hc₀ hc).took hvacant hframes hcontent hpacket
      · rw [List.getElem?_set_ne hj] at hd
        exact h.nears j c₀ d hc₀ hd
    · have hframe : Channel.FrameInRange r₀.order r₀.tickRate t frame := fun s _ hs => by
        cases hcontentStamp.symm.trans hs
        exact ⟨time, hticks⟩
      refine (inRange_set hc ?_).trans h.inRange
      rw [← hholding, hframes]
      exact (and_iff_right hframe).symm.trans List.forall_mem_cons.symm

/-- Filling the channels from `k` on, when those before it hold packets already. -/
theorem Nearing.fill {m k : Nat} (h : Nearing r₀ t r)
    (hbefore : ∀ j < k, ∀ d, r.channels[j]? = some d → d.held.isSome)
    (hlength : k + m = r.channels.length) :
    (∃ r', r.fill (List.range' k m) = some (r', .ok none) ∧ Nearing r₀ t r' ∧ r'.Full ∧
        r'.stamps = r.stamps) ∨
      (r.fill (List.range' k m) = none ∧ ¬ r₀.InRange t) := by
  -- by the channels left; a channel that holds a packet is passed over
  induction m generalizing k r with
  | zero =>
    refine .inl ⟨r, rfl, h, fun c hc => ?_, rfl⟩
    obtain ⟨j, hj, rfl⟩ := List.mem_iff_getElem.mp hc
    exact hbefore j (by omega) _ (List.getElem?_eq_getElem hj)
  | succ m ih =>
    have hk : k < r.channels.length := by omega
    have hchannel : r.channels[k]? = some r.channels[k] := List.getElem?_eq_getElem hk
    rw [List.range'_succ, Receiver.fill, hchannel]
    dsimp only
    split
    · rename_i hheld
      exact ih h (held_lt_succ hbefore hchannel hheld) (by omega)
    · rename_i hheld
      rcases h.fetch hchannel (by simpa using hheld) with
        ⟨r₁, c', hfetch, hnearing, hstamps, hset, hsome⟩ | ⟨hfetch, hrange⟩
      · have hnew : r₁.channels[k]? = some c' := by rw [hset, List.getElem?_set_self hk]
        have hbefore' : ∀ j < k, ∀ d, r₁.channels[j]? = some d → d.held.isSome := by
          intro j hj d hd
          rw [hset, List.getElem?_set_ne (by omega)] at hd
          exact hbefore j hj d hd
        have hrest := ih hnearing (held_lt_succ hbefore' hnew hsome)
          (by rw [hset, List.length_set]; omega)
        rw [hstamps] at hrest
        rw [hfetch]
        exact hrest
      · rw [hfetch]
        exact .inr ⟨rfl, hrange⟩

/-! ## Rounds -/

/-- The packet that a channel holds stands first of those to come, and is not behind `t`. -/
theorem Meets.first (h : r.Meets t) (hfull : r.Full) {c : Channel} (hc : c ∈ r.channels) :
    ∃ p, ∃ own ≤ t, c.held = some p ∧ p.header.fractionalTime = some own := by
  obtain ⟨p, hp⟩ := Option.isSome_iff_exists.mp (hfull c hc)
  have hq : c.stamps r.order ∈ r.stamps := List.mem_map_of_mem hc
  rw [c.stamps_of_held r.order hp] at hq
  obtain ⟨own, hown, hstamp, -⟩ := h.head hq
  exact ⟨p, own, hown, hp, hstamp⟩

/-- The newest packet held is not newer than `t`. -/
theorem Meets.newest_le (h : r.Meets t) (hfull : r.Full) {n : UInt64}
    (hnewest : r.newest = some n) :
    n ≤ t ∧ ∀ c ∈ r.channels, ∃ p own, c.held = some p ∧ p.header.fractionalTime = some own ∧
      own ≤ n := by
  obtain ⟨hn, hmax⟩ := List.max?_eq_some_iff.mp hnewest
  constructor
  · obtain ⟨p, hp, hstamp⟩ := List.mem_filterMap.mp hn
    obtain ⟨c, hc, hp⟩ := List.mem_filterMap.mp hp
    obtain ⟨q, own, hown, hq, hsame⟩ := h.first hfull hc
    cases hp.symm.trans hq
    cases hstamp.symm.trans hsame
    exact hown
  · intro c hc
    obtain ⟨p, own, -, hp, hstamp⟩ := h.first hfull hc
    refine ⟨p, own, hp, hstamp, hmax own (List.mem_filterMap.mpr ⟨p, ?_, hstamp⟩)⟩
    exact List.mem_filterMap.mpr ⟨c, hc, hp⟩

theorem Meets.newest_ne (h : r.Meets t) (hfull : r.Full) {c : Channel} (hc : c ∈ r.channels) :
    r.newest ≠ none := by
  intro hnone
  obtain ⟨p, own, -, hp, hstamp⟩ := h.first hfull hc
  have hmem : own ∈ r.held.filterMap fun p => p.header.fractionalTime :=
    List.mem_filterMap.mpr ⟨p, List.mem_filterMap.mpr ⟨c, hc, hp⟩, hstamp⟩
  rw [List.max?_eq_none_iff.mp hnone] at hmem
  cases hmem

/-- Where no packet held is older than the newest one, all of them have the time `t`. -/
theorem Meets.found (h : r.Meets t) (hfull : r.Full) {n : UInt64} (hnewest : r.newest = some n)
    (hnone : r.held.any (isOlder n) = false) :
    ∀ c ∈ r.channels, ∃ p, c.held = some p ∧ p.header.fractionalTime = some t := by
  obtain ⟨hn, hfirst⟩ := h.newest_le hfull hnewest
  have hown : ∀ c ∈ r.channels, ∃ p, c.held = some p ∧ p.header.fractionalTime = some n := by
    intro c hc
    obtain ⟨p, own, hp, hstamp, hle⟩ := hfirst c hc
    have hheld : p ∈ r.held := List.mem_filterMap.mpr ⟨c, hc, hp⟩
    have hnot : ¬ own < n := by
      simpa [isOlder, hstamp] using List.any_eq_false.mp hnone p hheld
    rw [UInt64.le_antisymm hle (UInt64.not_lt.mp hnot)] at hstamp
    exact ⟨p, hp, hstamp⟩
  have hcommon : ∀ q ∈ r.stamps, some n ∈ q := by
    intro q hq
    obtain ⟨c, hc, rfl⟩ := List.mem_map.mp hq
    obtain ⟨p, hp, hstamp⟩ := hown c hc
    rw [c.stamps_of_held r.order hp, hstamp]
    exact List.mem_cons_self
  rwa [UInt64.le_antisymm hn (h.least n hcommon)] at hown

theorem channels_dropHeld (r : Receiver) (drop : HeldPacket → Bool) :
    (r.dropHeld drop).channels = r.channels.map (Channel.dropIf drop) := rfl

/-- A channel drops the packet that it holds or stays as it is. -/
theorem dropIf_isOlder (n : UInt64) (c : Channel) :
    (∃ p own, c.held = some p ∧ p.header.fractionalTime = some own ∧ own < n ∧
        c.dropIf (isOlder n) = { c with held := none }) ∨
      ((∀ p, c.held = some p → isOlder n p = false) ∧ c.dropIf (isOlder n) = c) := by
  rw [Channel.dropIf]
  cases hheld : c.held with
  | none => exact .inr ⟨fun _ hp => (by cases hp), by simp⟩
  | some p =>
    cases hstamp : p.header.fractionalTime with
    | none =>
      refine .inr ⟨fun q hq => ?_, by simp [isOlder, hstamp]⟩
      cases hq
      simp [isOlder, hstamp]
    | some own =>
      by_cases hlt : own < n
      · exact .inl ⟨p, own, rfl, hstamp, hlt, by simp [isOlder, hstamp, hlt]⟩
      · refine .inr ⟨fun q hq => ?_, by simp [isOlder, hstamp, hlt]⟩
        cases hq
        simp [isOlder, hstamp, hlt]

/-- The times to come on a channel after a round are those before it, but for one that is
older than the newest. -/
theorem stamps_dropIf_isOlder (order : ByteOrder) (n : UInt64) (c : Channel) :
    ((∀ p, c.held = some p → isOlder n p = false) ∧
        (c.dropIf (isOlder n)).stamps order = c.stamps order) ∨
      ∃ own < n, c.stamps order = some own :: (c.dropIf (isOlder n)).stamps order := by
  rcases dropIf_isOlder n c with ⟨p, own, hp, hstamp, hlt, hdrop⟩ | ⟨hnone, hsame⟩
  · refine .inr ⟨own, hlt, ?_⟩
    rw [hdrop, c.stamps_of_held order hp, hstamp, Channel.stamps_of_vacant order rfl]
  · exact .inl ⟨hnone, by rw [hsame]⟩

theorem stamps_dropHeld (r : Receiver) (n : UInt64) :
    (r.dropHeld (isOlder n)).stamps =
      r.channels.map fun c => (c.dropIf (isOlder n)).stamps r.order := by
  rw [stamps, channels_dropHeld, List.map_map]
  rfl

/-- After a round `t` is the least common time still. -/
theorem Meets.dropHeld (h : r.Meets t) {n : UInt64} (hn : n ≤ t) :
    (r.dropHeld (isOlder n)).Meets t := by
  have hbefore (c : Channel) (hc : c ∈ r.channels) : c.stamps r.order ∈ r.stamps :=
    List.mem_map_of_mem hc
  refine ⟨?_, ?_, ?_⟩
  · rw [stamps_dropHeld, List.forall_mem_map]
    intro c hc
    rcases stamps_dropIf_isOlder r.order n c with ⟨-, hsame⟩ | ⟨own, -, htail⟩
    · rw [hsame]
      exact h.ascending _ (hbefore c hc)
    · obtain ⟨times, htimes, hascending⟩ := h.ascending _ (hbefore c hc)
      rw [htail] at htimes
      obtain ⟨_, later, rfl, -, hlater⟩ := List.map_eq_cons_iff.mp htimes.symm
      exact ⟨later, hlater.symm, hascending.of_cons⟩
  · rw [stamps_dropHeld, List.forall_mem_map]
    intro c hc
    have hq := hbefore c hc
    rcases stamps_dropIf_isOlder r.order n c with ⟨-, hsame⟩ | ⟨own, hown, htail⟩
    · rw [hsame]
      exact h.common _ hq
    · rw [htail] at hq
      obtain ⟨_, -, hfirst, hrest, -⟩ := h.head hq
      cases hfirst
      exact hrest (UInt64.lt_of_lt_of_le hown hn)
  · intro s hs
    rw [stamps_dropHeld, List.forall_mem_map] at hs
    refine h.least s fun q hq => ?_
    obtain ⟨c, hc, rfl⟩ := List.mem_map.mp hq
    rcases stamps_dropIf_isOlder r.order n c with ⟨-, hsame⟩ | ⟨own, -, htail⟩
    · rw [← hsame]
      exact hs c hc
    · rw [htail]
      exact List.mem_cons_of_mem _ (hs c hc)

/-- A round that drops a packet leaves fewer that are older than `t`. -/
theorem older_dropHeld_lt {n : UInt64} (hn : n ≤ t) (hsome : r.held.any (isOlder n) = true) :
    (r.dropHeld (isOlder n)).older t < r.older t := by
  have hcount (own : UInt64) (rest : List (Option UInt64)) (hown : own < n) :
      (some own :: rest).countP (fun s => s.any (· < t)) =
        rest.countP (fun s => s.any (· < t)) + 1 :=
    List.countP_cons_of_pos (by simpa using UInt64.lt_of_lt_of_le hown hn)
  rw [older, older, stamps_dropHeld, stamps, List.map_map, List.map_map]
  refine List.sum_lt_sum _ _ (fun c _ => ?_) ?_
  · simp only [Function.comp_apply]
    rcases stamps_dropIf_isOlder r.order n c with ⟨-, hsame⟩ | ⟨own, hown, htail⟩
    · exact Nat.le_of_eq (congrArg _ hsame)
    · rw [htail, hcount own _ hown]
      exact Nat.le_succ _
  · obtain ⟨p, hp, holder⟩ := List.any_eq_true.mp hsome
    obtain ⟨c, hc, hheld⟩ := List.mem_filterMap.mp hp
    refine ⟨c, hc, ?_⟩
    simp only [Function.comp_apply]
    rcases stamps_dropIf_isOlder r.order n c with ⟨hnone, -⟩ | ⟨own, hown, htail⟩
    · exact absurd holder (by rw [hnone p hheld]; decide)
    · rw [htail, hcount own _ hown]
      exact Nat.lt_succ_self _

/-- A round drops nothing but packets older than `t`. -/
theorem Nearing.dropHeld (h : Nearing r₀ t r) {n : UInt64} (hn : n ≤ t) :
    Nearing r₀ t (r.dropHeld (isOlder n)) := by
  obtain ⟨channels, markers, rfl⟩ := h.same
  refine ⟨⟨_, _, rfl⟩, ?_, ?_, h.meets.dropHeld hn, ?_⟩
  · rw [channels_dropHeld, List.length_map]
    exact h.length
  · intro index c₀ d hc₀ hd
    rw [channels_dropHeld, List.getElem?_map] at hd
    obtain ⟨c, hc, rfl⟩ := Option.map_eq_some_iff.mp hd
    have hnears := h.nears index c₀ c hc₀ hc
    rcases dropIf_isOlder n c with ⟨p, own, hp, hstamp, hown, hdrop⟩ | ⟨-, hsame⟩
    · rw [hdrop]
      exact hnears.dropped hp hstamp (UInt64.lt_of_lt_of_le hown hn)
    · rwa [hsame]
  · refine Iff.trans ?_ h.inRange
    rw [InRange, channels_dropHeld, List.forall_mem_map]
    refine forall₂_congr fun c _ => ?_
    rcases dropIf_isOlder n c with ⟨-, -, -, -, -, hdrop⟩ | ⟨-, hsame⟩
    · rw [hdrop]
      rfl
    · rw [hsame]
      rfl

/-- With as many rounds as there are packets older than `t`, all channels come to `t`. -/
theorem Nearing.alignWithin {rounds : Nat} (h : Nearing r₀ t r) (hrounds : r.older t ≤ rounds) :
    (∃ r', r.alignWithin rounds = some (r', .ok none) ∧ Nearing r₀ t r' ∧
        ∀ c ∈ r'.channels, ∃ p, c.held = some p ∧ p.header.fractionalTime = some t) ∨
      (r.alignWithin rounds = none ∧ ¬ r₀.InRange t) := by
  -- by the rounds left, of which one that drops packets uses one up
  induction rounds using Nat.strongRecOn generalizing r with
  | ind rounds ih =>
    have hfilled := h.fill (k := 0) (m := r.channels.length) (by simp) (by simp)
    rw [← List.range_eq_range'] at hfilled
    rw [Receiver.alignWithin]
    rcases hfilled with ⟨r₁, hfill, hnearing, hfull, hstamps⟩ | ⟨hfill, hrange⟩
    · rw [hfill]
      have holder : r₁.older t ≤ rounds := by
        rw [older, hstamps]
        exact hrounds
      cases hnewest : r₁.newest with
      | none =>
        simp only [Option.bind_eq_bind, Option.bind_some, hnewest]
        exact .inl ⟨r₁, rfl, hnearing, fun c hc =>
          absurd hnewest (hnearing.meets.newest_ne hfull hc)⟩
      | some n =>
        have hn := (hnearing.meets.newest_le hfull hnewest).1
        cases hsome : r₁.held.any (isOlder n) with
        | false =>
          simp only [Option.bind_eq_bind, Option.bind_some, hnewest, hsome, Bool.false_eq_true,
            if_false]
          exact .inl ⟨r₁, rfl, hnearing, hnearing.meets.found hfull hnewest hsome⟩
        | true =>
          have hfewer := older_dropHeld_lt hn hsome
          cases rounds with
          | zero => omega
          | succ rounds =>
            simp only [Option.bind_eq_bind, Option.bind_some, hnewest, hsome, if_true]
            exact ih rounds (Nat.lt_succ_self rounds) (hnearing.dropHeld hn) (by omega)
    · rw [hfill]
      exact .inr ⟨rfl, hrange⟩

/-! ## The least common time -/

/-- Behind packets of the time `t` on all channels none is stamped `t` or earlier. -/
theorem Meets.inRange (h : r.Meets t)
    (hfound : ∀ c ∈ r.channels, ∃ p, c.held = some p ∧ p.header.fractionalTime = some t) :
    r.InRange t := by
  intro c hc frame hframe s hs hstamp
  obtain ⟨p, hp, htime⟩ := hfound c hc
  have hq : c.stamps r.order ∈ r.stamps := List.mem_map_of_mem hc
  rw [c.stamps_of_held r.order hp, htime] at hq
  obtain ⟨_, -, hfirst, -, hlater⟩ := h.head hq
  cases hfirst
  have hbehind : t < s := hlater s (List.mem_map.mpr ⟨frame, hframe, hstamp⟩)
  exact absurd hbehind (UInt64.not_lt.mpr hs)

/-- Let the times to come ascend on all channels, and `t` be the least common one, with no
more older packets before it than rounds may be needed. Then the channels are brought to
`t`: each of them holds its packet of that time, has dropped those before it, which are all
older, and has taken nothing behind it. But if the time of a packet in flight that is
stamped `t` or earlier is out of range, there is no answer. -/
theorem align_finds_least (hmeets : r.Meets t) (holder : r.older t ≤ r.alignmentThreshold) :
    (r.InRange t → ∃ r', r.align = some (r', .ok none) ∧
        (∃ channels markers, r' = { r with channels, markers }) ∧
        List.Forall₂ (Channel.Finds r.order r.wireItem r.tickRate t) r.channels r'.channels) ∧
      (¬ r.InRange t → r.align = none) := by
  have hstart : Nearing r t r := by
    refine ⟨⟨_, _, rfl⟩, rfl, fun index c₀ c hc₀ hc => ?_, hmeets, Iff.rfl⟩
    cases hc₀.symm.trans hc
    exact .start
  rcases hstart.alignWithin holder with ⟨r', halign, hnearing, hfound⟩ | ⟨halign, hrange⟩
  · have hrange : r.InRange t := hnearing.inRange.mp (hnearing.meets.inRange hfound)
    refine ⟨fun _ => ⟨r', halign, hnearing.same, ?_⟩, fun hnot => absurd hrange hnot⟩
    refine List.forall₂_iff_get.mpr ⟨hnearing.length.symm, fun index hc hc' => ?_⟩
    obtain ⟨p, hp, hstamp⟩ := hfound _ (List.get_mem r'.channels ⟨index, hc'⟩)
    exact (hnearing.nears index _ _ (List.getElem?_eq_getElem hc)
      (List.getElem?_eq_getElem hc')).finds hp hstamp
  · exact ⟨fun hnot => absurd hnot hrange, fun _ => halign⟩

/-- Two channels with packets of times 7 and 9, and of times 5, 6 and 7. -/
def behindTwo : Receiver :=
  ((((twoChannels.onLink 0
    (·.carry [0x10, 0x10, 0, 5, 0, 0, 0, 0, 0, 0, 0, 0, 0, 0, 0, 7, 0, 1, 0, 2])).onLink
    0 (·.carry [0x10, 0x11, 0, 5, 0, 0, 0, 0, 0, 0, 0, 0, 0, 0, 0, 9, 0, 3, 0, 4])).onLink
    1 (·.carry [0x10, 0x10, 0, 5, 0, 0, 0, 0, 0, 0, 0, 0, 0, 0, 0, 5, 0, 5, 0, 6])).onLink
    1 (·.carry [0x10, 0x11, 0, 5, 0, 0, 0, 0, 0, 0, 0, 0, 0, 0, 0, 6, 0, 7, 0, 8])).onLink
    1 (·.carry [0x10, 0x12, 0, 5, 0, 0, 0, 0, 0, 0, 0, 0, 0, 0, 0, 7, 0, 9, 0, 0])

theorem stamps_behindTwo : behindTwo.stamps = [[some 7, some 9], [some 5, some 6, some 7]] := by
  decide +kernel

/-- The second channel drops two packets to come to the time 7 of the first. -/
theorem align_finds_least_behindTwo :
    behindTwo.Meets 7 ∧ behindTwo.older 7 ≤ behindTwo.alignmentThreshold ∧
      ∃ r', behindTwo.align = some (r', .ok none) ∧
        List.Forall₂ (Channel.Finds behindTwo.order behindTwo.wireItem behindTwo.tickRate 7)
          behindTwo.channels r'.channels := by
  have hmeets : behindTwo.Meets 7 := by
    refine ⟨?_, ?_, fun s hs => ?_⟩ <;> rw [stamps_behindTwo] at *
    · intro q hq
      rcases List.mem_pair.mp hq with rfl | rfl
      · exact ⟨[7, 9], rfl, by decide⟩
      · exact ⟨[5, 6, 7], rfl, by decide⟩
    · decide
    · have hfirst : s = 7 ∨ s = 9 := by simpa using hs [some 7, some 9] (by simp)
      rcases hfirst with rfl | rfl <;> decide
  have holder : behindTwo.older 7 ≤ behindTwo.alignmentThreshold := by
    rw [older, stamps_behindTwo]
    decide
  have hrange : behindTwo.InRange 7 := by decide +kernel
  obtain ⟨r', halign, -, hfinds⟩ := (align_finds_least hmeets holder).1 hrange
  exact ⟨hmeets, holder, r', halign, hfinds⟩

/-- A packet of time 2^63, the earliest one as a signed number, where time runs backward. -/
def backwardClock : Receiver :=
  Receiver.onLink { twoChannels with
    channels := twoChannels.channels.take 1
    deviceChannels := [0]
    tickRate := Float.ofBits 0xbff8000000000000 } 0
    (·.carry [0x10, 0x10, 0, 5, 0, 0, 0, 0, 0x80, 0, 0, 0, 0, 0, 0, 0, 0, 1, 0, 2])

theorem stamps_backwardClock : backwardClock.stamps = [[some 0x8000000000000000]] := by
  decide +kernel

/-- Where the time of the least common packet is out of range there is no answer. -/
theorem align_backwardClock :
    backwardClock.Meets 0x8000000000000000 ∧
      backwardClock.older 0x8000000000000000 ≤ backwardClock.alignmentThreshold ∧
      backwardClock.align = none := by
  refine ⟨⟨?_, ?_, fun s hs => ?_⟩, ?_, ?_⟩
  · rw [stamps_backwardClock]
    exact List.forall_mem_singleton.mpr ⟨[_], rfl, List.pairwise_singleton _ _⟩
  · rw [stamps_backwardClock]
    decide
  · rw [stamps_backwardClock, List.forall_mem_singleton, List.mem_singleton] at hs
    cases hs
    exact UInt64.le_refl _
  · rw [older, stamps_backwardClock]
    decide
  · have hnone : backwardClock.align.isNone = true := by decide +kernel
    exact Option.isNone_iff_eq_none.mp hnone

end SampleStream.Receiver
