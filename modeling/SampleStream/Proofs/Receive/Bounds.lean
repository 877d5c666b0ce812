import SampleStream.Proofs.Packet.Bounds
import SampleStream.Proofs.Packet.Canonical
import SampleStream.Proofs.Receive.Run
import SampleStream.Proofs.Sample.Bounds
import SampleStream.Receive.Guarded

/-!
# A receive stream stays inside its buffers

Whatever the links deliver, the packet that a channel holds lies inside the frame it
came in, and the position in it never passes its end (`HeldPacket.Inside`). This is
kept by everything that is done with a stream, and where it holds no slice, no
difference and no count of a call leaves its range: the call with every access
checked does what the plain one does (`recv_guards`).
-/

namespace SampleStream.Receive

/-! ## Packets held -/

/-- A packet whose samples lie in its payload, and the position in it among them. -/
structure HeldPacket.Inside (wire : Nat) (p : HeldPacket) : Prop where
  cursor : p.cursor ≤ p.samples
  samples : p.samples * wire ≤ p.payload.length
  small : p.payload.length ≤ 4 * maxPacketWords

section Held
variable {wire host count : Nat} {p : HeldPacket}

theorem HeldPacket.Inside.remainingGuarded_eq (hp : p.Inside wire) :
    p.remainingGuarded = .ok p.remaining :=
  Guarded.difference_of_le hp.cursor

theorem HeldPacket.Inside.advance (hp : p.Inside wire) (hcount : count ≤ p.remaining) :
    (p.advance count).Inside wire := by
  have hcursor := hp.cursor
  rw [HeldPacket.remaining] at hcount
  refine ⟨?_, hp.samples, hp.small⟩
  change p.cursor + count ≤ p.samples
  omega

/-- Samples that a packet still has can be converted into a buffer with room. -/
theorem HeldPacket.Inside.fits (hp : p.Inside wire) (hcount : count ≤ p.remaining)
    {buffer : Bytes} {filled room : Nat} (hfilled : filled + count ≤ room)
    (hroom : room * host ≤ buffer.length) (hlimit : room * host < sizeLimit) :
    Sample.Converter.Fits wire host ⟨p.payload, p.cursor⟩ ⟨buffer, filled⟩ count := by
  have hcursor := hp.cursor
  have hsamples := hp.samples
  have hsmall := hp.small
  rw [HeldPacket.remaining] at hcount
  have hinside : (p.cursor + count) * wire ≤ p.samples * wire :=
    Nat.mul_le_mul_right wire (by omega)
  have hwritten : (filled + count) * host ≤ room * host := Nat.mul_le_mul_right host hfilled
  refine ⟨?_, ?_, ?_, ?_⟩
  · exact Nat.le_trans hinside hsamples
  · change p.payload.length + 8 < sizeLimit
    rw [maxPacketWords] at hsmall
    rw [sizeLimit]
    omega
  · exact Nat.le_trans hwritten hroom
  · exact Nat.lt_of_le_of_lt hwritten hlimit

end Held

/-! ## Channels -/

namespace Channel

/-- What every channel of a stream keeps: its converter fits the samples, its last
count has four bits, and the packet it holds lies inside its frame. -/
structure Sound (wire host : Nat) (c : Channel) : Prop where
  reads : c.converter.Reads wire host
  lastCount : ∀ count, c.lastCount = some count → count.toNat < 16
  held : ∀ p, c.held = some p → p.Inside wire

variable {wire host : Nat} {c : Channel}

/-- A channel without a packet. -/
theorem Sound.vacant (hc : c.Sound wire host) :
    ({ c with held := none } : Channel).Sound wire host :=
  ⟨hc.reads, hc.lastCount, fun _ h => (Option.some_ne_none _ h.symm).elim⟩

theorem Sound.linked (hc : c.Sound wire host) (link : Link) :
    ({ c with link } : Channel).Sound wire host :=
  ⟨hc.reads, hc.lastCount, hc.held⟩

/-! ### Fetching -/

theorem isGapGuarded_eq {last : Option UInt8} (count : UInt8)
    (hlast : ∀ n, last = some n → n.toNat < 16) :
    isGapGuarded last count = .ok (isGap last count) := by
  cases last with
  | none => rfl
  | some n =>
    have hbyte : n.toNat + 1 < 256 := Nat.lt_of_le_of_lt (hlast n rfl) (by decide)
    have hnext : nextCountGuarded n = .ok (nextCount n) := by
      rw [nextCountGuarded, if_pos hbyte, nextCount]
    rw [isGapGuarded, hnext]
    rfl

theorem reportCodeGuarded_eq (order : ByteOrder) (payload : Bytes) :
    reportCodeGuarded order payload = .ok (reportCode order payload) := by
  rw [reportCodeGuarded, reportCode]
  by_cases hshort : payload.length < 4
  · rw [if_pos hshort, if_pos hshort]
    rfl
  · rw [if_neg hshort, if_neg hshort, order.wordIn_eq (by omega)]
    rfl

/-- What is read of a packet that is accepted fits its place. -/
theorem accepted_small {order : ByteOrder} {frame payload : Bytes} {h : Header} {e : Extent}
    (hunpack : Header.unpack order frame = .ok (h, e))
    (hpayload : e.payloadOf frame = some payload) :
    h.count.toNat < 16 ∧ payload.length ≤ 4 * maxPacketWords := by
  obtain ⟨hstand, -, hextent, hfirst⟩ := Header.unpack_eq_ok hunpack
  have hsmall := hstand.small
  rw [← hextent, Extent.total] at hsmall
  refine ⟨?_, ?_⟩
  · rw [hfirst.count, UInt8.toNat_ofNat']
    omega
  · rw [length_of_slice hpayload]
    omega

theorem Sound.fetch_guards (hc : c.Sound wire host) (index : Nat) (order : ByteOrder)
    (tickRate : Float) :
    Guarded.Guards (c.fetchGuarded index order wire tickRate) (c.fetch index order wire tickRate)
      fun result => ∀ c' fetched, result = .ok (c', fetched) → c'.Sound wire host := by
  unfold fetchGuarded fetch
  cases c.link.recv with
  | error e =>
    refine .pure fun c' fetched h => ?_
    cases h
  | ok arrived =>
    cases arrived with
    | none =>
      refine .pure fun c' fetched h => ?_
      cases h
      exact hc
    | some arrival =>
      obtain ⟨frame, link⟩ := arrival
      have hlinked := hc.linked link
      dsimp only
      refine .check (Header.unpackGuarded_eq order frame) ?_
      cases hunpack : Header.unpack order frame with
      | error e =>
        refine .pure fun c' fetched h => ?_
        cases h
        exact hlinked
      | ok parts =>
        obtain ⟨h, e⟩ := parts
        obtain ⟨payload, hpayload⟩ := Header.payloadOf_of_unpack hunpack
        obtain ⟨hcount, hsmall⟩ := accepted_small hunpack hpayload
        refine .timed_bind fun time _ => .ok_bind hpayload (by rw [hpayload]; rfl) ?_
        by_cases hclass : h.packetClass = .context
        · rw [if_pos hclass, if_pos hclass]
          refine .check (reportCodeGuarded_eq order payload) (.pure fun c' fetched h => ?_)
          cases h
          by_cases hcode : reportCode order payload = .overflow
          · rw [if_pos hcode]
            exact ⟨hc.reads, nofun, hc.held⟩
          · rw [if_neg hcode]
            exact hlinked
        · rw [if_neg hclass, if_neg hclass]
          refine .check (isGapGuarded_eq h.count hc.lastCount)
            (.check (Guarded.quotient_of_pos hc.reads.wire_pos) (.pure fun c' fetched h => ?_))
          cases h
          refine ⟨hc.reads, fun n hn => ?_, fun p hp => ?_⟩
          · cases hn
            exact hcount
          · cases hp
            exact ⟨Nat.zero_le _, Nat.div_mul_le_self _ _, hsmall⟩

/-! ### Handing out -/

theorem Sound.convert_of_sound (hc : c.Sound wire host) {count filled room : Nat} {buffer : Bytes}
    (hcount : ∀ p, c.held = some p → count ≤ p.remaining) (hfilled : filled + count ≤ room)
    (hroom : room * host ≤ buffer.length) (hlimit : room * host < sizeLimit) :
    ∃ out, c.convert buffer filled count = some out ∧
      c.convertGuarded buffer filled count = .ok out ∧ room * host ≤ out.length := by
  unfold convert convertGuarded
  cases hheld : c.held with
  | none => exact ⟨buffer, rfl, rfl, hroom⟩
  | some p =>
    have hfits := (hc.held p hheld).fits (hcount p hheld) hfilled hroom hlimit
    obtain ⟨out, hout, hguarded⟩ := Sample.Converter.convert_of_fits hc.reads hfits
    refine ⟨out, hout, hguarded, ?_⟩
    rw [Sample.Converter.convert_eq_splice hc.reads hout, length_splice]
    · exact hroom
    · have hwritten := hfits.room
      rw [Nat.add_mul] at hwritten
      rw [hc.reads.length_run]
      exact hwritten

theorem Sound.advance_of_sound (hc : c.Sound wire host) {count : Nat}
    (hcount : ∀ p, c.held = some p → count ≤ p.remaining) :
    c.advanceGuarded count = .ok (c.advance count) ∧ (c.advance count).1.Sound wire host := by
  unfold advanceGuarded advance
  cases hheld : c.held with
  | none => exact ⟨rfl, hc⟩
  | some p =>
    have hp := hc.held p hheld
    have hmoved := hp.advance (hcount p hheld)
    have hcursor : p.cursor + count < sizeLimit := by
      have hinside : p.cursor + count ≤ p.samples := hmoved.cursor
      have hpos := Nat.le_mul_of_pos_right p.samples hc.reads.wire_pos
      have hsamples := hp.samples
      have hsmall := hp.small
      rw [maxPacketWords] at hsmall
      rw [sizeLimit]
      omega
    have hadvance : p.advanceGuarded count = .ok (p.advance count) := by
      rw [HeldPacket.advanceGuarded, Guarded.bounded_addSize hcursor]
      rfl
    dsimp only
    rw [hadvance, Guarded.ok_bind, hmoved.remainingGuarded_eq, Guarded.ok_bind]
    by_cases hused : (p.advance count).remaining = 0
    · rw [if_pos hused, if_pos hused]
      exact ⟨rfl, hc.vacant⟩
    · rw [if_neg hused, if_neg hused]
      refine ⟨rfl, hc.reads, hc.lastCount, fun q hq => ?_⟩
      cases hq
      exact hmoved

end Channel
end SampleStream.Receive

namespace SampleStream.Receiver
open Receive

/-! ## Streams -/

/-- A stream all of whose channels are sound. -/
structure Sound (wire host : Nat) (r : Receiver) : Prop where
  wireItem : r.wireItem = wire
  hostItem : r.hostItem = host
  channels : ∀ c ∈ r.channels, c.Sound wire host

variable {wire host : Nat} {r : Receiver}

theorem Sound.held (hr : r.Sound wire host) : ∀ p ∈ r.held, p.Inside wire := by
  intro p hp
  obtain ⟨c, hc, hheld⟩ := List.mem_filterMap.mp hp
  exact (hr.channels c hc).held p hheld

/-- Dropping packets leaves a stream sound. -/
theorem Sound.dropHeld (hr : r.Sound wire host) (drop : HeldPacket → Bool) :
    (r.dropHeld drop).Sound wire host := by
  refine ⟨hr.wireItem, hr.hostItem, fun c hc => ?_⟩
  obtain ⟨d, hd, rfl⟩ := List.mem_map.mp hc
  split
  · exact (hr.channels d hd).vacant
  · exact hr.channels d hd

theorem Sound.giveUp (hr : r.Sound wire host) : r.giveUp.Sound wire host :=
  ⟨hr.wireItem, hr.hostItem, (hr.dropHeld fun _ => true).channels⟩

theorem Sound.set (hr : r.Sound wire host) {c : Channel} (hc : c.Sound wire host) (index : Nat) :
    ({ r with channels := r.channels.set index c } : Receiver).Sound wire host := by
  refine ⟨hr.wireItem, hr.hostItem, fun d hd => ?_⟩
  rcases List.mem_or_eq_of_mem_set hd with hd | rfl
  · exact hr.channels d hd
  · exact hc

/-! ### Getting packets together -/

theorem fetch_guards (hr : r.Sound wire host) {c : Channel} (hc : c.Sound wire host)
    (index : Nat) :
    Guarded.Guards (r.fetchGuarded index c) (r.fetch index c) fun a => a.1.Sound wire host := by
  obtain ⟨rfl, rfl, -⟩ := id hr
  unfold fetchGuarded fetch
  refine (hc.fetch_guards index r.order r.tickRate).bind fun result hresult => ?_
  cases result with
  | error cause => exact .pure ⟨hr.wireItem, hr.hostItem, hr.channels⟩
  | ok fetched =>
    obtain ⟨c', fetched⟩ := fetched
    have hset := hr.set (hresult c' fetched rfl) index
    cases fetched with
    | packet gap => exact .pure ⟨hset.wireItem, hset.hostItem, hset.channels⟩
    | condition found =>
      dsimp only
      split
      · obtain ⟨issued, hrestart⟩ := restart_eq
          { r with channels := r.channels.set index c', markers := r.markers ++ [.overflow] }
        refine .pure ?_
        rw [hrestart]
        exact ⟨hset.wireItem, hset.hostItem, hset.channels⟩
      · exact .pure hset

theorem fill_guards (hr : r.Sound wire host) (indices : List Nat) :
    Guarded.Guards (r.fillGuarded indices) (r.fill indices) fun a => a.1.Sound wire host := by
  induction indices generalizing r with
  | nil => exact .pure hr
  | cons index rest ih =>
    unfold fillGuarded fill
    cases hc : r.channels[index]? with
    | none => exact ih hr
    | some c =>
      have hsound := hr.channels c (List.mem_of_getElem? hc)
      dsimp only
      by_cases hheld : c.held.isSome = true
      · rw [if_pos hheld, if_pos hheld]
        exact ih hr
      · rw [if_neg hheld, if_neg hheld]
        refine (fetch_guards hr hsound index).bind fun fetched hfetched => ?_
        obtain ⟨r', outcome⟩ := fetched
        -- only when nothing is in the way does the next channel get its turn
        cases outcome with
        | error e => exact .pure hfetched
        | ok found =>
          cases found with
          | some found => exact .pure hfetched
          | none => exact ih hfetched

theorem alignWithin_guards (hr : r.Sound wire host) (rounds : Nat) :
    Guarded.Guards (r.alignWithinGuarded rounds) (r.alignWithin rounds)
      fun a => a.1.Sound wire host := by
  -- by the rounds left, of which one that drops packets uses one up
  induction rounds using Nat.strongRecOn generalizing r with
  | ind rounds ih =>
    unfold alignWithinGuarded alignWithin
    refine (fill_guards hr _).bind fun filled hfilled => ?_
    obtain ⟨r', outcome⟩ := filled
    cases outcome with
    | error e => exact .pure hfilled
    | ok found =>
      cases found with
      | some found => exact .pure hfilled
      | none =>
        dsimp only
        cases r'.newest with
        | none => exact .pure hfilled
        | some time =>
          dsimp only
          by_cases holder : r'.held.any (isOlder time) = true
          · rw [if_pos holder, if_pos holder]
            cases rounds with
            | zero => exact .pure (hfilled.dropHeld _).giveUp
            | succ rounds => exact ih rounds (Nat.lt_succ_self rounds) (hfilled.dropHeld _)
          · rw [if_neg holder, if_neg holder]
            exact .pure hfilled

theorem ready_guards (hr : r.Sound wire host) :
    Guarded.Guards r.readyGuarded r.ready fun a => a.1.Sound wire host := by
  unfold readyGuarded ready
  by_cases hvacant : r.channels.any (·.held.isNone) = true
  · rw [if_pos hvacant, if_pos hvacant]
    exact alignWithin_guards hr _
  · rw [if_neg hvacant, if_neg hvacant]
    exact .pure hr

/-! ### Handing out -/

/-- A guarded computation on every element that has the values of a plain one. -/
theorem mapM_eq_ok {α β : Type} {f : α → Checked β} {g : α → Guarded β} {P : β → Prop}
    {l : List α} (h : ∀ a ∈ l, ∃ b, f a = some b ∧ g a = .ok b ∧ P b) :
    ∃ out, l.mapM f = some out ∧ l.mapM g = .ok out ∧ ∀ b ∈ out, P b := by
  induction l with
  | nil => exact ⟨[], rfl, rfl, nofun⟩
  | cons a l ih =>
    obtain ⟨b, hf, hg, hb⟩ := h a List.mem_cons_self
    obtain ⟨out, hfs, hgs, hout⟩ := ih fun a ha => h a (List.mem_cons_of_mem _ ha)
    refine ⟨b :: out, ?_, ?_, ?_⟩
    · rw [List.mapM_cons, hf, hfs]
      rfl
    · rw [List.mapM_cons, hg, hgs]
      rfl
    · intro c hc
      rcases List.mem_cons.mp hc with rfl | hc
      · exact hb
      · exact hout c hc

theorem mapM_of_forall {α β : Type} {f : α → β} {g : α → Guarded β} {l : List α}
    (h : ∀ a ∈ l, g a = .ok (f a)) : l.mapM g = .ok (l.map f) := by
  induction l with
  | nil => rfl
  | cons a l ih =>
    rw [List.mapM_cons, h a List.mem_cons_self, ih fun a ha => h a (List.mem_cons_of_mem _ ha)]
    rfl

/-- The room of a call: it has no more samples than are wanted, which have room in
every buffer. -/
structure Room (host wanted : Nat) (got : Received) : Prop where
  bound : got.samples ≤ wanted
  limit : wanted * host < sizeLimit
  buffers : ∀ b ∈ got.buffers, wanted * host ≤ b.length

variable {count wanted : Nat} {got : Received}

theorem convert_of_sound (hr : r.Sound wire host) (hroom : Room host wanted got)
    (hcount : ∀ p ∈ r.held, count ≤ p.remaining) (hwanted : got.samples + count ≤ wanted) :
    ∃ out, r.convert got.buffers got.samples count = some out ∧
      r.convertGuarded got.buffers got.samples count = .ok out ∧
      ∀ b ∈ out, wanted * host ≤ b.length := by
  refine mapM_eq_ok fun pair hpair => ?_
  obtain ⟨c, buffer⟩ := pair
  obtain ⟨hc, hbuffer⟩ := List.of_mem_zip hpair
  refine (hr.channels c hc).convert_of_sound (fun p hp => ?_) hwanted
    (hroom.buffers buffer hbuffer) hroom.limit
  exact hcount p (List.mem_filterMap.mpr ⟨c, hc, hp⟩)

theorem advance_of_sound (hr : r.Sound wire host) (hcount : ∀ p ∈ r.held, count ≤ p.remaining) :
    r.advanceGuarded count = .ok (r.advance count) ∧ (r.advance count).1.Sound wire host := by
  have hchannel (c : Channel) (hc : c ∈ r.channels) :=
    (hr.channels c hc).advance_of_sound fun p hp =>
      hcount p (List.mem_filterMap.mpr ⟨c, hc, hp⟩)
  refine ⟨?_, hr.wireItem, hr.hostItem, fun d hd => ?_⟩
  · rw [advanceGuarded, mapM_of_forall fun c hc => (hchannel c hc).1]
    rfl
  · obtain ⟨moved, hmoved, rfl⟩ := List.mem_map.mp hd
    obtain ⟨c, hc, rfl⟩ := List.mem_map.mp hmoved
    exact (hchannel c hc).2

/-- What is known of a call after a round. -/
def Round.Sound (wire host wanted : Nat) : Round → Prop
  | .done answer => answer.1.Sound wire host
  | .more r got => r.Sound wire host ∧ Room host wanted got

theorem handOut_guards (hr : r.Sound wire host) (hroom : Room host wanted got)
    (onePacket : Bool) :
    Guarded.Guards (r.handOutGuarded wanted onePacket got) (r.handOut wanted onePacket got)
      (Round.Sound wire host wanted) := by
  unfold handOutGuarded handOut
  have hremaining :
      r.held.mapM HeldPacket.remainingGuarded = .ok (r.held.map HeldPacket.remaining) :=
    mapM_of_forall fun p hp => (hr.held p hp).remainingGuarded_eq
  refine .check hremaining ?_
  cases hleast : (r.held.map HeldPacket.remaining).min? with
  | none => exact .pure hr
  | some remaining =>
    dsimp only
    by_cases hgap : 0 < got.samples ∧ r.held.any HeldPacket.outOfSequence = true
    · rw [if_pos hgap, if_pos hgap]
      exact .pure hr
    rw [if_neg hgap, if_neg hgap]
    have hbound := hroom.bound
    have hcount : ∀ p ∈ r.held, min remaining (wanted - got.samples) ≤ p.remaining := by
      intro p hp
      have hle := (List.min?_eq_some_iff.mp hleast).2 p.remaining (List.mem_map_of_mem hp)
      omega
    have hwanted : got.samples + min remaining (wanted - got.samples) ≤ wanted := by omega
    have hsize : got.samples + min remaining (wanted - got.samples) < sizeLimit := by
      obtain ⟨p, hp, -⟩ := List.mem_map.mp (List.min?_mem hleast)
      obtain ⟨c, hc, -⟩ := List.mem_filterMap.mp hp
      have hhost := Nat.le_mul_of_pos_right wanted (hr.channels c hc).reads.host_pos
      have hlimit := hroom.limit
      omega
    obtain ⟨out, hout, hguarded, hbuffers⟩ := convert_of_sound hr hroom hcount hwanted
    obtain ⟨hadvance, hsound⟩ := advance_of_sound hr hcount
    refine .check (Guarded.difference_of_le hbound) (.timed_bind fun metadata _ => ?_)
    refine .ok_bind hout hguarded (.check (Guarded.bounded_addSize hsize) (.check hadvance ?_))
    generalize r.advance (min remaining (wanted - got.samples)) = moved at hsound ⊢
    obtain ⟨r', used⟩ := moved
    have hended : r'.endBurst.Sound wire host := by
      obtain ⟨mode, hmode⟩ := endBurst_eq r'
      rw [hmode]
      exact ⟨hsound.wireItem, hsound.hostItem, hsound.channels⟩
    by_cases hover : onePacket = true ∨ r.held.any HeldPacket.outOfSequence = true ∨
        got.samples + min remaining (wanted - got.samples) = wanted
    · rcases used with _ | _ | _
      · simp only [if_pos hover]
        exact .pure hsound
      · simp only [if_pos hover]
        exact .pure hsound
      · exact .pure hended
    · rcases used with _ | _ | _
      · simp only [if_neg hover]
        exact .pure ⟨hsound, hwanted, hroom.limit, hbuffers⟩
      · simp only [if_neg hover]
        exact .pure ⟨hsound, hwanted, hroom.limit, hbuffers⟩
      · exact .pure hended

theorem round_guards (hr : r.Sound wire host) (hroom : Room host wanted got) (onePacket : Bool) :
    Guarded.Guards (r.roundGuarded wanted onePacket got) (r.round wanted onePacket got)
      (Round.Sound wire host wanted) := by
  unfold roundGuarded round
  refine (ready_guards hr).bind fun readied hready => ?_
  obtain ⟨r', outcome⟩ := readied
  cases outcome with
  | error e => exact .pure hready
  | ok found =>
    cases found with
    | some found =>
      obtain ⟨pending, metadata, hreport⟩ := report_eq r' found got
      refine .pure ?_
      rw [hreport]
      exact ⟨hready.wireItem, hready.hostItem, hready.channels⟩
    | none => exact handOut_guards hready hroom onePacket

theorem collect_guards (hr : r.Sound wire host) (hroom : Room host wanted got) (onePacket : Bool)
    (rounds : Nat) :
    Guarded.Guards (collectGuarded wanted onePacket rounds r got)
      (collect wanted onePacket rounds r got) fun answer => answer.1.Sound wire host := by
  induction rounds generalizing r got with
  | zero => exact .pure hr
  | succ rounds ih =>
    unfold collectGuarded collect
    refine (round_guards hr hroom onePacket).bind fun result hresult => ?_
    cases result with
    | done answer => exact .pure hresult
    | more r' got' => exact ih hresult.1 hresult.2

/-! ## Calls -/

/-- A call on a sound stream does the same with every access checked, and leaves a
sound stream. -/
theorem recv_guards (hr : r.Sound wire host) (buffers : List Bytes)
    (hlimit : wanted * host < sizeLimit) (onePacket : Bool) :
    Guarded.Guards (r.recvGuarded buffers wanted onePacket) (r.recv buffers wanted onePacket)
      fun answer => answer.1.Sound wire host := by
  obtain ⟨rfl, rfl, hchannels⟩ := id hr
  unfold recvGuarded recv
  cases r.pending with
  | some metadata => exact .pure ⟨rfl, rfl, hchannels⟩
  | none =>
    dsimp only
    by_cases hcount : buffers.length ≠ r.channels.length
    · rw [if_pos hcount, if_pos hcount]
      exact .pure hr
    · rw [if_neg hcount, if_neg hcount]
      refine .ok_bind (mulSize_eq_some.mpr ⟨hlimit, rfl⟩) (Guarded.bounded_mulSize hlimit) ?_
      cases hshort : buffers.find? fun b => decide (b.length < wanted * r.hostItem) with
      | some buffer => exact .pure hr
      | none =>
        refine collect_guards hr ⟨Nat.zero_le _, hlimit, fun b hb => ?_⟩ onePacket _
        simpa using List.find?_eq_none.mp hshort b hb

/-- A call that asks for more than any buffer has room for gets no further than its
checks. -/
theorem recv_of_limit {buffers : List Bytes} {onePacket : Bool} {answer : Answer}
    (hlimit : ¬ wanted * r.hostItem < sizeLimit)
    (h : r.recv buffers wanted onePacket = some answer) :
    answer.1 = { r with pending := none } ∨ answer.1 = r := by
  unfold Receiver.recv at h
  split at h
  · cases h
    exact .inl rfl
  · split at h
    · cases h
      exact .inr rfl
    · simp only [bind, Option.bind_eq_some_iff] at h
      obtain ⟨need, hneed, -⟩ := h
      exact absurd (mulSize_eq_some.mp hneed).1 hlimit

theorem Sound.recv (hr : r.Sound wire host) {buffers : List Bytes} {onePacket : Bool}
    {answer : Answer} (h : r.recv buffers wanted onePacket = some answer) :
    answer.1.Sound wire host := by
  by_cases hlimit : wanted * host < sizeLimit
  · exact (recv_guards hr buffers hlimit onePacket).value answer h
  · obtain ⟨rfl, rfl, hchannels⟩ := id hr
    rcases recv_of_limit hlimit h with heq | heq
    · rw [heq]
      exact ⟨rfl, rfl, hchannels⟩
    · rw [heq]
      exact hr

/-! ## Reachable streams -/

/-- The streams that a stream can come to: the far ends do anything to the links, the
device is given commands, rates are set, and calls return, with whatever answer. -/
inductive Reachable (r₀ : Receiver) : Receiver → Prop where
  | start : Reachable r₀ r₀
  | linked {r : Receiver} (h : Reachable r₀ r) (index : Nat) (f : Link → Link) :
    Reachable r₀ (r.onLink index f)
  | command {r : Receiver} (h : Reachable r₀ r) (command : StreamCommand) :
    Reachable r₀ (r.command command)
  | rates {r : Receiver} (h : Reachable r₀ r) (tickRate sampleRate : Float) :
    Reachable r₀ { r with tickRate, sampleRate }
  | call {r : Receiver} (h : Reachable r₀ r) {buffers : List Bytes} {wanted : Nat}
    {onePacket : Bool} {answer : Answer}
    (hrecv : r.recv buffers wanted onePacket = some answer) : Reachable r₀ answer.1

theorem Built.sound {o : StreamOptions} {settings : Settings} {links : List Link}
    (h : Built o settings links r) : r.Sound r.wireItem r.hostItem := by
  refine ⟨rfl, rfl, fun c hc => ?_⟩
  obtain ⟨hlast, hheld, hreads⟩ := h.fresh c hc
  refine ⟨hreads, fun count hcount => ?_, fun p hp => ?_⟩
  · rw [hlast] at hcount
    cases hcount
  · rw [hheld] at hp
    cases hp

theorem Sound.onLink (hr : r.Sound wire host) (index : Nat) (f : Link → Link) :
    (r.onLink index f).Sound wire host := by
  refine ⟨hr.wireItem, hr.hostItem, fun d hd => ?_⟩
  obtain ⟨j, hj⟩ := List.getElem?_of_mem hd
  obtain ⟨hlt, -⟩ := List.getElem?_eq_some_iff.mp hj
  rw [Receiver.onLink, List.length_modify] at hlt
  have hc := List.getElem?_eq_getElem hlt
  have hsound := hr.channels _ (List.mem_of_getElem? hc)
  rw [getElem?_onLink r f hc, Option.some.injEq] at hj
  rw [← hj]
  split
  · exact hsound.linked _
  · exact hsound

/-- Every reachable stream is sound. -/
theorem Reachable.sound {r₀ : Receiver} (h : Reachable r₀ r) (hr₀ : r₀.Sound wire host) :
    r.Sound wire host := by
  induction h with
  | start => exact hr₀
  | linked _ index f ih => exact ih.onLink index f
  | command _ command ih =>
    refine ⟨?_, ?_, ?_⟩ <;> unfold Receiver.command issue <;> split
    · exact ih.wireItem
    · exact ih.wireItem
    · exact ih.hostItem
    · exact ih.hostItem
    · exact ih.channels
    · exact ih.channels
  | rates _ tickRate sampleRate ih => exact ⟨ih.wireItem, ih.hostItem, ih.channels⟩
  | call _ hrecv ih => exact ih.recv hrecv

/-- In every stream that a new one can come to, whatever frames its links deliver, the
samples of each packet held lie in its payload and the position in it among them, and
no call leaves the bounds of a slice, a difference or a count: with every access
checked it does what it does without, and stops for a time only. -/
theorem reachable_stays_in_bounds {o : StreamOptions} {settings : Settings} {links : List Link}
    {r₀ : Receiver} (hbuilt : Built o settings links r₀) (hreach : Reachable r₀ r) :
    (∀ p ∈ r.held, p.cursor ≤ p.samples ∧ p.samples * r.wireItem ≤ p.payload.length) ∧
      ∀ (buffers : List Bytes) (wanted : Nat) (onePacket : Bool),
        wanted * r.hostItem < sizeLimit →
        r.recvGuarded buffers wanted onePacket ≠ .error .bounds ∧
        r.recvGuarded buffers wanted onePacket =
          Guarded.timed (r.recv buffers wanted onePacket) := by
  have hsound := hreach.sound hbuilt.sound
  refine ⟨fun p hp => ?_, fun buffers wanted onePacket hlimit => ?_⟩
  · have hinside := hsound.held p hp
    rw [hsound.wireItem]
    exact ⟨hinside.cursor, hinside.samples⟩
  · rw [hsound.hostItem] at hlimit
    have hsame := (recv_guards hsound buffers hlimit onePacket).same
    exact ⟨hsame ▸ Guarded.timed_ne_bounds _, hsame⟩

/-- A stream of one channel with packed samples on the wire and single precision on
the host. -/
def packedChannel : Receiver where
  channels := [{
    link := { depth := 4 }
    converter := (Sample.Converter.start (.compute (.unpackBlocks .big .single))).setScalar
      (Real.ofNat 1 / Sample.peak "sc12") }]
  deviceChannels := [0]
  order := .big
  wireItem := 3
  hostItem := 8
  packetSamples := 364
  tickRate := Real.ofNat 100000000
  sampleRate := Real.ofNat 0
  alignmentThreshold := 1000

theorem built_packedChannel :
    Built { hostFormat := "fc32", wireFormat := "sc12" } {} [{ depth := 4 }] packedChannel :=
  ⟨_, rfl, rfl⟩

/-- A frame whose size field reaches past its end, and behind it a packet of four
packed samples with a byte too many. -/
def fragmentAndBlock : Receiver :=
  (packedChannel.onLink 0 (·.carry [0x10, 0, 0, 9, 0, 0, 0])).onLink 0 (·.carry
    [0x10, 0, 0, 5, 0, 0, 0, 1, 1, 2, 3, 4, 5, 6, 7, 8, 9, 10, 11, 12, 13])

/-- The fragment is reported, three of the samples are received, and the fourth is
still to come. -/
theorem reachable_stays_in_bounds_fragment :
    ∃ r p, Reachable packedChannel r ∧ r.held = [p] ∧ p.cursor = 3 ∧ p.samples = 4 ∧
      p.samples * 3 ≤ p.payload.length ∧ 1 * 8 < sizeLimit ∧
      r.recvGuarded [List.replicate 8 0] 1 false ≠ .error .bounds := by
  have hheld : ((fragmentAndBlock.recv [List.replicate 24 0] 3 false).bind fun a =>
      a.1.recv [List.replicate 24 0] 3 false).map
        (fun a => (a.1.wireItem, a.1.hostItem, a.1.held.map fun p => (p.cursor, p.samples))) =
      some (3, 8, [(3, 4)]) := by decide +kernel
  obtain ⟨second, hcalls, hseen⟩ := Option.map_eq_some_iff.mp hheld
  obtain ⟨first, hfirst, hsecond⟩ := Option.bind_eq_some_iff.mp hcalls
  obtain ⟨hwire, hhost, hseen⟩ := by simpa only [Prod.mk.injEq] using hseen
  obtain ⟨p, hp, hparts⟩ := List.map_eq_singleton_iff.mp hseen
  have hreach : Reachable packedChannel second.1 :=
    .call (.call (.linked (.linked .start 0 _) 0 _) hfirst) hsecond
  obtain ⟨hbounds, hcalls⟩ := reachable_stays_in_bounds built_packedChannel hreach
  have hinside := (hbounds p (by rw [hp]; exact List.mem_singleton_self p)).2
  rw [hwire] at hinside
  refine ⟨second.1, p, hreach, hp, congrArg Prod.fst hparts, congrArg Prod.snd hparts, hinside,
    by decide, ?_⟩
  exact (hcalls [List.replicate 8 0] 1 false (by rw [hhost]; decide)).1

end SampleStream.Receiver
