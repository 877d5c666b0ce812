import SampleStream.Proofs.Packet.Frames
import SampleStream.Proofs.Receive.History

/-!
# Keeping the books of a channel

A ledger writes down, event by event, which frames a channel took, what became of
the packets of samples among them, and how much of each was handed out. It is a
fold over the events and knows nothing of the stream; `Step.tracks` says that it
stays true to the channel through every step: the packet held is the open entry,
and the entries are the packets of the frames taken, in order and none twice.
-/

namespace SampleStream.Receive

/-! ## Entries -/

/-- A packet of samples that a channel took. -/
structure Part where
  header : Header
  payload : Bytes
  samples : Nat
  /-- Samples handed out, which are the first ones. -/
  used : Nat := 0
deriving DecidableEq

namespace Part

def packet (p : Part) : Header × Bytes := (p.header, p.payload)

def remaining (p : Part) : Nat := p.samples - p.used

def isOlder (time : UInt64) (p : Part) : Bool := p.header.fractionalTime.any (· < time)

def hand (p : Part) (count : Nat) : Part := { p with used := p.used + count }

/-- The samples handed out: the payload and the index of each. -/
def out (p : Part) : List (Bytes × Nat) := (List.range p.used).map fun k => (p.payload, k)

end Part

/-- The entry of a packet held. -/
def HeldPacket.part (p : HeldPacket) : Part :=
  { header := p.header, payload := p.payload, samples := p.samples, used := p.cursor }

/-- Why a packet is not held any more. -/
inductive Fate where
  /-- All of it was handed out. -/
  | used
  /-- It was older than the newest packet held. -/
  | outdated (newest : UInt64)
  /-- The channels did not come to a common time. -/
  | misaligned
deriving DecidableEq

/-- What holds of a packet that met this fate. -/
def Fate.Befell (p : Part) : Fate → Prop
  | used => p.used = p.samples
  | outdated newest => p.isOlder newest = true
  | misaligned => True

/-! ## Ledgers -/

/-- What became of the frames that a channel took. -/
structure Ledger where
  /-- The frames, oldest first. -/
  taken : List Bytes := []
  lastCount : Option UInt8 := none
  /-- Packets not held any more, oldest first. -/
  gone : List (Part × Fate) := []
  /-- The packet held. -/
  current : Option Part := none
deriving DecidableEq

namespace Ledger

/-- All packets, oldest first. -/
def parts (l : Ledger) : List Part := l.gone.map Prod.fst ++ l.current.toList

/-- All samples handed out, in order. -/
def out (l : Ledger) : List (Bytes × Nat) := l.parts.flatMap Part.out

/-- A frame is taken. -/
def take (order : ByteOrder) (wireItem : Nat) (frame : Bytes) (l : Ledger) : Ledger :=
  { l with
    taken := l.taken ++ [frame]
    lastCount := (contentOf order frame).countAfter l.lastCount
    current :=
      match contentOf order frame with
      | .samples header payload => some { header, payload, samples := payload.length / wireItem }
      | _ => l.current }

/-- The packet held is dropped, if `drop` picks it. -/
def drop (drop : Part → Bool) (fate : Fate) (l : Ledger) : Ledger :=
  match l.current with
  | none => l
  | some p => if drop p then { l with gone := l.gone ++ [(p, fate)], current := none } else l

/-- Samples of the packet held are handed out. -/
def hand (count : Nat) (l : Ledger) : Ledger :=
  match l.current with
  | none => l
  | some p =>
    if (p.hand count).remaining = 0 then
      { l with gone := l.gone ++ [(p.hand count, .used)], current := none }
    else { l with current := some (p.hand count) }

/-- An event, as far as it is about the channel `index`. -/
def record (order : ByteOrder) (wireItem index : Nat) (l : Ledger) : Event → Ledger
  | .came .. | .closed _ => l
  | .took channel frame => if channel = index then l.take order wireItem frame else l
  | .outdated time => l.drop (Part.isOlder time) (.outdated time)
  | .misaligned => l.drop (fun _ => true) .misaligned
  | .handed count => l.hand count

/-- All events in order. -/
def recordAll (order : ByteOrder) (wireItem index : Nat) (l : Ledger) (es : List Event) : Ledger :=
  es.foldl (record order wireItem index) l

variable {order : ByteOrder} {wireItem index : Nat}

@[simp] theorem recordAll_nil (l : Ledger) : l.recordAll order wireItem index [] = l := rfl

theorem recordAll_append (l : Ledger) (es es' : List Event) :
    l.recordAll order wireItem index (es ++ es') =
      (l.recordAll order wireItem index es).recordAll order wireItem index es' :=
  List.foldl_append

theorem recordAll_snoc (l : Ledger) (es : List Event) (e : Event) :
    l.recordAll order wireItem index (es ++ [e]) =
      (l.recordAll order wireItem index es).record order wireItem index e := by
  rw [recordAll_append]
  rfl

/-! ## Handing out -/

theorem out_hand {l : Ledger} {p : Part} (hp : l.current = some p) (count : Nat) :
    (l.hand count).out =
      l.out ++ (List.range count).map fun k => (p.payload, p.used + k) := by
  have hpart : (p.hand count).out =
      p.out ++ (List.range count).map fun k => (p.payload, p.used + k) := by
    simp [Part.out, Part.hand, List.range_add]
  have hparts : (l.hand count).parts = l.gone.map Prod.fst ++ [p.hand count] := by
    rw [hand, hp]
    dsimp only
    split <;> simp [parts]
  rw [out, hparts, out, parts, hp]
  simp [hpart]

theorem out_take {l : Ledger} (hnone : l.current = none) (frame : Bytes) :
    (l.take order wireItem frame).out = l.out := by
  rw [out, out, parts, parts, take]
  dsimp only
  split
  · rw [hnone]
    simp [Part.out]
  · rfl

theorem parts_drop (l : Ledger) (drop : Part → Bool) (fate : Fate) :
    (l.drop drop fate).parts = l.parts := by
  cases hcurrent : l.current with
  | none => rw [Ledger.drop, hcurrent]
  | some p =>
    simp only [Ledger.drop, hcurrent]
    split
    · simp [parts, hcurrent]
    · rfl

theorem out_drop (l : Ledger) (drop : Part → Bool) (fate : Fate) :
    (l.drop drop fate).out = l.out := by
  rw [out, parts_drop, out]

end Ledger

/-! ## One channel through one step -/

/-- The packet of samples in a frame, if that is what it holds. -/
def packetOf (order : ByteOrder) (frame : Bytes) : Option (Header × Bytes) :=
  match contentOf order frame with
  | .samples h payload => some (h, payload)
  | _ => none

/-- The frames that hold packets of samples are those with a readable header that
is not one of a report. -/
theorem packetOf_isSome_iff {order : ByteOrder} {frame : Bytes} :
    (packetOf order frame).isSome ↔
      ∃ h extent, Header.unpack order frame = .ok (h, extent) ∧ h.packetClass ≠ .context := by
  cases hunpack : Header.unpack order frame with
  | error e => simp [packetOf, contentOf, hunpack]
  | ok parts =>
    obtain ⟨h, extent⟩ := parts
    obtain ⟨payload, hpayload⟩ := Header.payloadOf_of_unpack hunpack
    by_cases hclass : h.packetClass = .context
    · simp [packetOf, contentOf, hunpack, hpayload, hclass]
    · simp [packetOf, contentOf, hunpack, hpayload, hclass]

/-- The channel without the packet it holds, if `drop` picks that. -/
def Channel.dropIf (drop : HeldPacket → Bool) (c : Channel) : Channel :=
  if c.held.any drop then { c with held := none } else c

theorem Channel.dropIf_dropIf_all (drop : HeldPacket → Bool) (c : Channel) :
    (c.dropIf drop).dropIf (fun _ => true) = { c with held := none } := by
  obtain ⟨link, converter, lastCount, held⟩ := c
  cases held with
  | none => rfl
  | some p => cases h : drop p <;> simp [dropIf, h]

/-- What an event does to the channel at a position. -/
inductive Channel.Moved (order : ByteOrder) (wireItem : Nat) (tickRate : Float) (index : Nat) :
    Event → Channel → Channel → Prop where
  | came (frame : Bytes) (c : Channel) :
    Moved order wireItem tickRate index (.came index frame) c { c with link := c.link.carry frame }
  | closed (c : Channel) :
    Moved order wireItem tickRate index (.closed index) c { c with link := c.link.closeSender }
  | took {c c' : Channel} {frame : Bytes} {rest : List Bytes} {fetched : Fetched}
      (hvacant : c.held = none) (hlink : c.link.frames = frame :: rest)
      (h : Taken order wireItem tickRate index c frame rest c' fetched) :
    Moved order wireItem tickRate index (.took index frame) c c'
  | outdated (time : UInt64) (c : Channel) :
    Moved order wireItem tickRate index (.outdated time) c (c.dropIf (Receiver.isOlder time))
  | misaligned (c : Channel) :
    Moved order wireItem tickRate index .misaligned c { c with held := none }
  | handed {count : Nat} {c : Channel} {p : HeldPacket} (hp : c.held = some p)
      (hcount : count ≤ p.remaining) :
    Moved order wireItem tickRate index (.handed count) c (c.advance count).1
  | came_elsewhere {channel : Nat} (hne : channel ≠ index) (frame : Bytes) (c : Channel) :
    Moved order wireItem tickRate index (.came channel frame) c c
  | closed_elsewhere {channel : Nat} (hne : channel ≠ index) (c : Channel) :
    Moved order wireItem tickRate index (.closed channel) c c
  | took_elsewhere {channel : Nat} (hne : channel ≠ index) (frame : Bytes) (c : Channel) :
    Moved order wireItem tickRate index (.took channel frame) c c

/-! ## A true ledger -/

/-- The frame that an event puts on the link of a channel, if it does. -/
def Event.arrival (index : Nat) : Event → Option Bytes
  | came channel frame => if channel = index then some frame else none
  | _ => none

/-- The samples of every channel that an event hands out. -/
def Event.count : Event → Nat
  | handed count => count
  | _ => 0

/-- What the ledger of a channel says is so. -/
structure Ledger.Tracks (order : ByteOrder) (wireItem : Nat) (l : Ledger) (c : Channel) :
    Prop where
  lastCount : c.lastCount = l.lastCount
  held : c.held.map HeldPacket.part = l.current
  packets : l.parts.map Part.packet = l.taken.filterMap (packetOf order)
  sizes : ∀ p ∈ l.parts, p.samples = p.payload.length / wireItem ∧ p.used ≤ p.samples
  fates : ∀ x ∈ l.gone, x.2.Befell x.1

namespace Ledger.Tracks

variable {order : ByteOrder} {wireItem index : Nat} {l : Ledger} {c : Channel}

theorem drop (ht : l.Tracks order wireItem c) {pick : HeldPacket → Bool} {pick' : Part → Bool}
    {fate : Fate} (hpick : ∀ p : HeldPacket, pick p = pick' p.part)
    (hfate : ∀ p, pick' p = true → fate.Befell p) :
    (l.drop pick' fate).Tracks order wireItem (c.dropIf pick) := by
  have hparts := l.parts_drop pick' fate
  cases hheld : c.held with
  | none =>
    have hcurrent : l.current = none := by rw [← ht.held, hheld]; rfl
    simpa [Ledger.drop, hcurrent, Channel.dropIf, hheld] using ht
  | some p =>
    have hcurrent : l.current = some p.part := by rw [← ht.held, hheld]; rfl
    cases hp : pick' p.part with
    | false => simpa [Ledger.drop, hcurrent, Channel.dropIf, hheld, hpick, hp] using ht
    | true =>
      have hledger : l.drop pick' fate =
          { l with gone := l.gone ++ [(p.part, fate)], current := none } := by
        simp [Ledger.drop, hcurrent, hp]
      have hchannel : c.dropIf pick = { c with held := none } := by
        simp [Channel.dropIf, hheld, hpick, hp]
      rw [hledger] at hparts ⊢
      rw [hchannel]
      refine ⟨ht.lastCount, rfl, ?_, ?_, ?_⟩
      · rw [hparts]
        exact ht.packets
      · rw [hparts]
        exact ht.sizes
      · intro x hx
        rcases List.mem_append.mp hx with hx | hx
        · exact ht.fates x hx
        · cases List.mem_singleton.mp hx
          exact hfate _ hp

theorem hand (ht : l.Tracks order wireItem c) {p : HeldPacket} (hp : c.held = some p)
    {count : Nat} (hcount : count ≤ p.remaining) :
    (l.hand count).Tracks order wireItem (c.advance count).1 := by
  have hcurrent : l.current = some p.part := by rw [← ht.held, hp]; rfl
  have hmem : p.part ∈ l.parts := by simp [parts, hcurrent]
  obtain ⟨hsamples, hused⟩ := ht.sizes _ hmem
  have hroom : (p.part.hand count).used ≤ (p.part.hand count).samples := by
    simp only [HeldPacket.remaining] at hcount
    simp only [HeldPacket.part, Part.hand] at hused ⊢
    omega
  have hparts : (l.hand count).parts = l.gone.map Prod.fst ++ [p.part.hand count] := by
    rw [Ledger.hand, hcurrent]
    dsimp only
    split <;> simp [parts]
  have hpackets : (l.hand count).parts.map Part.packet = l.parts.map Part.packet := by
    rw [hparts, parts, hcurrent]
    simp [Part.packet, Part.hand]
  have hsizes : ∀ q ∈ (l.hand count).parts,
      q.samples = q.payload.length / wireItem ∧ q.used ≤ q.samples := by
    intro q hq
    rw [hparts] at hq
    rcases List.mem_append.mp hq with hq | hq
    · exact ht.sizes q (List.mem_append_left _ hq)
    · cases List.mem_singleton.mp hq
      exact ⟨hsamples, hroom⟩
  -- the entry moves to those gone just when the channel gives the packet back
  by_cases hdone : (p.part.hand count).remaining = 0
  · have hledger : l.hand count =
        { l with gone := l.gone ++ [(p.part.hand count, .used)], current := none } := by
      simp [Ledger.hand, hcurrent, hdone]
    rw [hledger] at hpackets hsizes ⊢
    rw [Channel.advance_of_used hp hdone]
    refine ⟨ht.lastCount, rfl, hpackets.trans ht.packets, hsizes, ?_⟩
    intro x hx
    rcases List.mem_append.mp hx with hx | hx
    · exact ht.fates x hx
    · cases List.mem_singleton.mp hx
      exact Nat.le_antisymm hroom (Nat.sub_eq_zero_iff_le.mp hdone)
  · have hledger : l.hand count = { l with current := some (p.part.hand count) } := by
      simp [Ledger.hand, hcurrent, hdone]
    rw [hledger] at hpackets hsizes ⊢
    rw [Channel.advance_of_left hp hdone]
    exact ⟨ht.lastCount, rfl, hpackets.trans ht.packets, hsizes, ht.fates⟩

theorem take (ht : l.Tracks order wireItem c) {c' : Channel} {frame : Bytes} {rest : List Bytes}
    {fetched : Channel.Fetched} {tickRate : Float} (hvacant : c.held = none)
    (h : Channel.Taken order wireItem tickRate index c frame rest c' fetched) :
    (l.take order wireItem frame).Tracks order wireItem c' := by
  have hcurrent : l.current = none := by rw [← ht.held, hvacant]; rfl
  have hcount := h.lastCount
  rw [ht.lastCount] at hcount
  -- a frame without samples leaves the packets as they were
  have hsame (hno : packetOf order frame = none)
      (htake : (l.take order wireItem frame).current = l.current) (hheld : c'.held = c.held) :
      (l.take order wireItem frame).Tracks order wireItem c' := by
    have hparts : (l.take order wireItem frame).parts = l.parts := by rw [parts, htake]; rfl
    refine ⟨hcount, by rw [hheld, htake, ht.held], ?_, by rw [hparts]; exact ht.sizes, ht.fates⟩
    rw [hparts, ht.packets, Ledger.take, List.filterMap_append]
    simp [hno]
  cases h with
  | unreadable hcontent =>
    exact hsame (by simp [packetOf, hcontent]) (by simp [Ledger.take, hcontent]) rfl
  | report hcontent time =>
    exact hsame (by simp [packetOf, hcontent]) (by simp [Ledger.take, hcontent]) rfl
  | @samples header payload hcontent time =>
    have hnew : (l.take order wireItem frame).current =
        some { header, payload, samples := payload.length / wireItem } := by
      simp [Ledger.take, hcontent]
    have hparts : (l.take order wireItem frame).parts =
        l.parts ++ [{ header, payload, samples := payload.length / wireItem }] := by
      rw [parts, hnew, parts, hcurrent]
      simp [Ledger.take]
    refine ⟨hcount, hnew.symm, ?_, ?_, ht.fates⟩
    · rw [hparts, List.map_append, ht.packets, Ledger.take, List.filterMap_append]
      simp [packetOf, hcontent, Part.packet]
    · intro p hp
      rw [hparts] at hp
      rcases List.mem_append.mp hp with hp | hp
      · exact ht.sizes p hp
      · cases List.mem_singleton.mp hp
        exact ⟨rfl, Nat.zero_le _⟩

end Ledger.Tracks

namespace Channel.Moved

variable {order : ByteOrder} {wireItem index : Nat} {tickRate : Float} {e : Event} {c c' : Channel}

theorem tracks (h : Moved order wireItem tickRate index e c c') {l : Ledger}
    (ht : l.Tracks order wireItem c) :
    (l.record order wireItem index e).Tracks order wireItem c' := by
  cases h with
  | came frame => exact ⟨ht.lastCount, ht.held, ht.packets, ht.sizes, ht.fates⟩
  | closed => exact ⟨ht.lastCount, ht.held, ht.packets, ht.sizes, ht.fates⟩
  | took hvacant hlink h =>
    rw [Ledger.record, if_pos rfl]
    exact ht.take hvacant h
  | outdated time => exact ht.drop (fun _ => rfl) (fun _ h => h)
  | misaligned =>
    have hall : (l.drop (fun _ => true) .misaligned).Tracks order wireItem
        (c.dropIf fun _ => true) := ht.drop (fun _ => rfl) fun _ _ => trivial
    have hnone : c.dropIf (fun _ => true) = { c with held := none } := by
      simpa [Channel.dropIf] using c.dropIf_dropIf_all fun _ => false
    rw [hnone] at hall
    exact hall
  | handed hp hcount => exact ht.hand hp hcount
  | came_elsewhere => exact ht
  | closed_elsewhere => exact ht
  | took_elsewhere hne =>
    rw [Ledger.record, if_neg hne]
    exact ht

/-- No frame is lost or comes twice between the far end and the ledger. -/
theorem frames (h : Moved order wireItem tickRate index e c c') (l : Ledger) :
    l.taken ++ c.link.frames ++ (e.arrival index).toList =
      (l.record order wireItem index e).taken ++ c'.link.frames := by
  have hdrop (drop : Part → Bool) (fate : Fate) : (l.drop drop fate).taken = l.taken := by
    unfold Ledger.drop
    split
    · rfl
    · split <;> rfl
  have hhand (count : Nat) : (l.hand count).taken = l.taken := by
    unfold Ledger.hand
    split
    · rfl
    · split <;> rfl
  cases h with
  | came frame => simp [Event.arrival, Ledger.record, Link.carry]
  | closed => simp [Event.arrival, Ledger.record, Link.closeSender]
  | took hvacant hlink h => simp [Event.arrival, Ledger.record, Ledger.take, hlink, h.link]
  | outdated time =>
    have hlink : (c.dropIf (Receiver.isOlder time)).link = c.link := by
      unfold Channel.dropIf
      split <;> rfl
    simp [Event.arrival, Ledger.record, hdrop, hlink]
  | misaligned => simp [Event.arrival, Ledger.record, hdrop]
  | @handed count _ p hp hcount =>
    have hlink : (c.advance count).1.link = c.link := by
      simp only [Channel.advance, hp]
      split <;> rfl
    simp [Event.arrival, Ledger.record, hhand, hlink]
  | came_elsewhere hne => simp [Event.arrival, Ledger.record, hne]
  | closed_elsewhere => simp [Event.arrival, Ledger.record]
  | took_elsewhere hne => simp [Event.arrival, Ledger.record, hne]

/-- As many samples are handed out as the event says, whichever the channel. -/
theorem out (h : Moved order wireItem tickRate index e c c') {l : Ledger}
    (ht : l.Tracks order wireItem c) :
    ∃ out, (l.record order wireItem index e).out = l.out ++ out ∧ out.length = e.count := by
  cases h with
  | came frame => exact ⟨[], by simp [Ledger.record], rfl⟩
  | closed => exact ⟨[], by simp [Ledger.record], rfl⟩
  | took hvacant hlink h =>
    have hcurrent : l.current = none := by rw [← ht.held, hvacant]; rfl
    exact ⟨[], by simp [Ledger.record, Ledger.out_take hcurrent], rfl⟩
  | outdated time => exact ⟨[], by simp [Ledger.record, Ledger.out_drop], rfl⟩
  | misaligned => exact ⟨[], by simp [Ledger.record, Ledger.out_drop], rfl⟩
  | @handed count _ p hp hcount =>
    have hcurrent : l.current = some p.part := by rw [← ht.held, hp]; rfl
    exact ⟨_, Ledger.out_hand hcurrent count, by simp [Event.count]⟩
  | came_elsewhere => exact ⟨[], by simp [Ledger.record], rfl⟩
  | closed_elsewhere => exact ⟨[], by simp [Ledger.record], rfl⟩
  | took_elsewhere hne => exact ⟨[], by simp [Ledger.record, hne], rfl⟩

end Channel.Moved

end SampleStream.Receive

namespace SampleStream.Receiver
open Receive

theorem getElem?_onLink (r : Receiver) {channel index : Nat} {c : Channel} (f : Link → Link)
    (hc : r.channels[index]? = some c) :
    (r.onLink channel f).channels[index]? =
      some (if channel = index then { c with link := f c.link } else c) := by
  rw [onLink, List.getElem?_modify, hc]
  split <;> rfl

theorem getElem?_dropHeld (r : Receiver) {index : Nat} {c : Channel} (drop : HeldPacket → Bool)
    (hc : r.channels[index]? = some c) :
    (r.dropHeld drop).channels[index]? = some (c.dropIf drop) := by
  rw [dropHeld, List.getElem?_map, hc]
  rfl

theorem mem_held {r : Receiver} {index : Nat} {c : Channel} {p : HeldPacket}
    (hc : r.channels[index]? = some c) (hp : c.held = some p) : p ∈ r.held :=
  List.mem_filterMap.mpr ⟨c, List.mem_of_getElem? hc, hp⟩

theorem Step.moved {r r' : Receiver} {e : Event} (h : Step r e r') {index : Nat} {c : Channel}
    (hc : r.channels[index]? = some c) :
    ∃ c', r'.channels[index]? = some c' ∧
      Channel.Moved r.order r.wireItem r.tickRate index e c c' := by
  cases h with
  | came channel frame =>
    refine ⟨_, getElem?_onLink r _ hc, ?_⟩
    split
    · subst channel
      exact .came frame c
    · exact .came_elsewhere ‹_› frame c
  | closed channel =>
    refine ⟨_, getElem?_onLink r _ hc, ?_⟩
    split
    · subst channel
      exact .closed c
    · exact .closed_elsewhere ‹_› c
  | @took _ channel d frame rest found hfirst hlink h =>
    obtain ⟨_, -, htook⟩ := fetch_of_frame hlink h
    obtain ⟨d', fetched, htaken, hchannels, -⟩ := htook.channels
    by_cases heq : channel = index
    · subst heq
      cases hfirst.channel.symm.trans hc
      obtain ⟨hlt, -⟩ := List.getElem?_eq_some_iff.mp hc
      exact ⟨d', by rw [hchannels, List.getElem?_set_self hlt], .took hfirst.vacant hlink htaken⟩
    · exact ⟨c, by rw [hchannels, List.getElem?_set_ne heq, hc], .took_elsewhere heq frame c⟩
  | outdated => exact ⟨_, getElem?_dropHeld r _ hc, .outdated _ c⟩
  | misaligned =>
    -- older packets go first and then the others, which comes to the same
    refine ⟨_, getElem?_dropHeld _ _ (getElem?_dropHeld r _ hc), ?_⟩
    rw [Channel.dropIf_dropIf_all]
    exact .misaligned c
  | handed hfull haligned hcount =>
    obtain ⟨p, hp⟩ := Option.isSome_iff_exists.mp (hfull c (List.mem_of_getElem? hc))
    refine ⟨_, ?_, .handed hp (hcount p (mem_held hc hp))⟩
    rw [advance, List.getElem?_map, List.getElem?_map, hc]
    rfl

/-- A ledger that is true of a channel stays so when what happens is written down,
and accounts for every frame. -/
theorem History.tracks {r r' : Receiver} {es : List Event} (h : History r es r') {index : Nat}
    {c : Channel} (hc : r.channels[index]? = some c) {l : Ledger}
    (ht : l.Tracks r.order r.wireItem c) :
    ∃ c', r'.channels[index]? = some c' ∧
      (l.recordAll r.order r.wireItem index es).Tracks r.order r.wireItem c' ∧
      l.taken ++ c.link.frames ++ es.filterMap (Event.arrival index) =
        (l.recordAll r.order r.wireItem index es).taken ++ c'.link.frames := by
  induction h with
  | refl => exact ⟨c, hc, ht, by simp⟩
  | @step r₁ r₂ es e h hstep ih =>
    obtain ⟨c₁, hc₁, ht₁, hframes⟩ := ih
    obtain ⟨c₂, hc₂, hmoved⟩ := hstep.moved hc₁
    rw [order_of_setup h.setup, wireItem_of_setup h.setup] at hmoved
    refine ⟨c₂, hc₂, ?_, ?_⟩
    · rw [Ledger.recordAll_snoc]
      exact hmoved.tracks ht₁
    · rw [Ledger.recordAll_snoc, ← hmoved.frames, ← hframes, List.filterMap_append]
      cases harrival : e.arrival index <;> simp [harrival]
  | aside h pending mode issued ih => exact ih

theorem History.out {r r' : Receiver} {es : List Event} (h : History r es r') {index : Nat}
    {c : Channel} (hc : r.channels[index]? = some c) {l : Ledger}
    (ht : l.Tracks r.order r.wireItem c) :
    ∃ out, (l.recordAll r.order r.wireItem index es).out = l.out ++ out ∧
      out.length = (es.map Event.count).sum := by
  induction h with
  | refl => exact ⟨[], by simp, rfl⟩
  | @step r₁ r₂ es e h hstep ih =>
    obtain ⟨out, hout, hlength⟩ := ih
    obtain ⟨c₁, hc₁, ht₁, -⟩ := h.tracks hc ht
    obtain ⟨c₂, -, hmoved⟩ := hstep.moved hc₁
    rw [order_of_setup h.setup, wireItem_of_setup h.setup] at hmoved
    obtain ⟨more, hmore, hcount⟩ := hmoved.out ht₁
    refine ⟨out ++ more, ?_, by simp [hlength, hcount]⟩
    rw [Ledger.recordAll_snoc, hmore, hout, List.append_assoc]
  | aside h pending mode issued ih => exact ih

end SampleStream.Receiver
