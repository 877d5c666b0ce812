import SampleStream.Receive.Call

/-!
# What taking a frame does

A frame holds samples, a report, or nothing that can be read. What a channel and
its stream are after the frame is taken follows from that alone: `Channel.Taken`
lists the three ways, and `Receiver.fetch_cases` says that `fetch` goes one of
them, finds nothing there yet, or finds the link closed. Nothing below has to open
`fetch` again.
-/

namespace SampleStream.Receive

theorem Channel.toNat_nextCount (count : UInt8) :
    (nextCount count).toNat = (count.toNat + 1) % 16 := by
  have hmask : (0xf : UInt8).toNat = 2 ^ 4 - 1 := rfl
  rw [nextCount, UInt8.toNat_and, hmask, Nat.and_two_pow_sub_one_eq_mod, UInt8.toNat_add]
  show (count.toNat + 1) % 256 % 16 = _
  omega

/-! ## Frames -/

/-- What a frame holds. -/
inductive Content where
  /-- Nothing that can be read. -/
  | unreadable
  /-- A report of the device. -/
  | report (code : Code)
  /-- A packet of samples. -/
  | samples (h : Header) (payload : Bytes)

/-- The code that a report names by the low byte of its first word. A report without that
word, or with a byte that stands for no code, is a bad packet. -/
def reportedCode (order : ByteOrder) (payload : Bytes) : Code :=
  if payload.length < 4 then .badPacket
  else match (order.wordAt payload 0).toNat % 256 with
    | 0x0 => .none
    | 0x1 => .timeout
    | 0x2 => .lateCommand
    | 0x4 => .brokenChain
    | 0x8 => .overflow
    | 0xc => .alignment
    | _ => .badPacket

theorem reportCode_eq (order : ByteOrder) (payload : Bytes) :
    Channel.reportCode order payload = reportedCode order payload := by
  unfold Channel.reportCode reportedCode
  split
  · rfl
  · generalize (order.wordAt payload 0).toNat % 256 = number
    unfold Code.ofNumber?
    split <;> simp_all

/-- What a frame holds, read in a byte order. -/
def contentOf (order : ByteOrder) (frame : Bytes) : Content :=
  match Header.unpack order frame with
  | .error _ => .unreadable
  | .ok (h, extent) =>
    match extent.payloadOf frame with
    | none => .unreadable
    | some payload =>
      if h.packetClass = .context then .report (reportedCode order payload)
      else .samples h payload

namespace Content

/-- The markers that a frame is worth on a channel with this last count. -/
def markers (last : Option UInt8) : Content → List Marker
  | unreadable => []
  | report code => if code = .overflow then [.overflow] else []
  | samples h _ => if Channel.isGap last h.count then [.dropped] else []

/-- The last count of the channel after a frame. -/
def countAfter (last : Option UInt8) : Content → Option UInt8
  | unreadable => last
  | report code => if code = .overflow then none else last
  | samples h _ => some h.count

end Content

/-- The time that a header gives in ticks, if it gives one that is in range. -/
def headerTime (tickRate : Float) (h : Header) : Option Time :=
  h.fractionalTime.bind fun ticks => Timestamp.ofTicks ticks.toInt64.toInt tickRate

/-- A time that is in range is told just if the header gives one. -/
theorem headerTime_of_packetTime {tickRate : Float} {h : Header} {time : Option Time}
    (htime : Channel.packetTime h tickRate = some time) :
    headerTime tickRate h = time ∧ time.isSome = h.fractionalTime.isSome := by
  unfold Channel.packetTime at htime
  unfold headerTime
  cases hticks : h.fractionalTime with
  | none =>
    rw [hticks] at htime
    cases htime
    exact ⟨rfl, rfl⟩
  | some ticks =>
    rw [hticks] at htime
    obtain ⟨t, ht, rfl⟩ := Option.map_eq_some_iff.mp htime
    exact ⟨ht, rfl⟩

/-- The time in the header of a frame, if it has one. -/
def timeIn (order : ByteOrder) (tickRate : Float) (frame : Bytes) : Option Time :=
  match Header.unpack order frame with
  | .error _ => none
  | .ok (h, _) => headerTime tickRate h

/-- The condition that a frame without samples is about, when a channel takes it. -/
def conditionIn (order : ByteOrder) (tickRate : Float) (index : Nat) (frame : Bytes) :
    Option Condition :=
  match contentOf order frame with
  | .unreadable => some { code := .badPacket, channel := index }
  | .report code => some { code, channel := index, time := timeIn order tickRate frame }
  | .samples .. => none

/-- The packet of samples in a frame, as a channel with this last count takes it. -/
def packetIn (order : ByteOrder) (wireItem : Nat) (tickRate : Float) (last : Option UInt8)
    (frame : Bytes) : Option HeldPacket :=
  match contentOf order frame with
  | .samples h payload => some {
      header := h, payload, samples := payload.length / wireItem
      time := timeIn order tickRate frame
      outOfSequence := Channel.isGap last h.count }
  | _ => none

/-! ## Channels -/

namespace Channel

/-- The channel without the frames before `rest`. -/
def left (c : Channel) (rest : List Bytes) : Channel :=
  { c with link := { c.link with frames := rest } }

/-- The channel after it took a frame off its link, and what came of it. -/
inductive Taken (order : ByteOrder) (wireItem : Nat) (tickRate : Float) (index : Nat)
    (c : Channel) (frame : Bytes) (rest : List Bytes) : Channel → Fetched → Prop where
  | unreadable (hcontent : contentOf order frame = .unreadable) :
    Taken order wireItem tickRate index c frame rest (c.left rest)
      (.condition { code := .badPacket, channel := index })
  | report {code : Code} (hcontent : contentOf order frame = .report code)
      (time : Option Time) (htime : timeIn order tickRate frame = time) :
    Taken order wireItem tickRate index c frame rest
      { c.left rest with lastCount := if code = .overflow then none else c.lastCount }
      (.condition { code, channel := index, time })
  | samples {h : Header} {payload : Bytes} (hcontent : contentOf order frame = .samples h payload)
      (time : Option Time) (htime : packetTime h tickRate = some time)
      (hframe : timeIn order tickRate frame = time) :
    Taken order wireItem tickRate index c frame rest
      { c.left rest with
        lastCount := some h.count
        held := some {
          header := h, payload, samples := payload.length / wireItem, time
          outOfSequence := isGap c.lastCount h.count } }
      (.packet (isGap c.lastCount h.count))

variable {order : ByteOrder} {wireItem index : Nat} {tickRate : Float} {c c' : Channel}
  {frame : Bytes} {rest : List Bytes} {fetched : Fetched}

theorem fetch_of_frame {result : Except LinkError (Channel × Fetched)}
    (hlink : c.link.frames = frame :: rest)
    (h : c.fetch index order wireItem tickRate = some result) :
    ∃ c' fetched, result = .ok (c', fetched) ∧
      Taken order wireItem tickRate index c frame rest c' fetched := by
  have hrecv : c.link.recv = .ok (some (frame, { c.link with frames := rest })) := by
    rw [Link.recv, hlink]
  cases hunpack : Header.unpack order frame with
  | error e =>
    simp only [fetch, hrecv, hunpack, pure, Option.some.injEq] at h
    exact ⟨_, _, h.symm, .unreadable (by rw [contentOf, hunpack])⟩
  | ok parts =>
    obtain ⟨hdr, extent⟩ := parts
    simp only [fetch, hrecv, hunpack, bind, Option.bind_eq_some_iff] at h
    obtain ⟨time, htime, payload, hpayload, h⟩ := h
    have hframe : timeIn order tickRate frame = time := by
      rw [timeIn, hunpack]
      exact (headerTime_of_packetTime htime).1
    by_cases hclass : hdr.packetClass = .context
    · have hcontent : contentOf order frame = .report (reportCode order payload) := by
        simp [contentOf, hunpack, hpayload, hclass, reportCode_eq]
      simp only [hclass, if_true, pure, Option.some.injEq] at h
      refine ⟨_, _, h.symm, ?_⟩
      have htaken : Taken order wireItem tickRate index c frame rest _ _ :=
        .report hcontent time hframe
      by_cases hcode : reportCode order payload = .overflow
      · simpa [hcode, left] using htaken
      · simpa [hcode, left] using htaken
    · have hcontent : contentOf order frame = .samples hdr payload := by
        simp [contentOf, hunpack, hpayload, hclass]
      simp only [hclass, if_false, pure, Option.some.injEq] at h
      exact ⟨_, _, h.symm, .samples hcontent time htime hframe⟩

theorem fetch_of_empty {result : Except LinkError (Channel × Fetched)}
    (hlink : c.link.frames = [])
    (h : c.fetch index order wireItem tickRate = some result) :
    result = .error .senderGone ∨
      result = .ok (c, .condition { code := .timeout, channel := index }) := by
  cases hopen : c.link.senderOpen with
  | true =>
    simp only [fetch, Link.recv, hlink, hopen, if_true, pure, Option.some.injEq] at h
    exact .inr h.symm
  | false =>
    simp only [fetch, Link.recv, hlink, hopen, Bool.false_eq_true, if_false, pure,
      Option.some.injEq] at h
    exact .inl h.symm

namespace Taken

variable (h : Taken order wireItem tickRate index c frame rest c' fetched)
include h

theorem link : c'.link = { c.link with frames := rest } := by
  cases h <;> rfl

theorem converter : c'.converter = c.converter := by
  cases h <;> rfl

theorem lastCount : c'.lastCount = (contentOf order frame).countAfter c.lastCount := by
  cases h with
  | unreadable hcontent => rw [hcontent]; rfl
  | report hcontent time => rw [hcontent]; rfl
  | samples hcontent time => rw [hcontent]; rfl

end Taken

/-- The condition that is in the way after a frame was taken. -/
def Fetched.condition? : Fetched → Option Condition
  | packet _ => none
  | condition found => some found

/-- After a frame a channel holds a packet, or it holds what it held and there is
a condition. -/
theorem Taken.held (h : Taken order wireItem tickRate index c frame rest c' fetched) :
    (fetched.condition? = none ∧ c'.held.isSome) ∨
      (∃ found, fetched.condition? = some found) ∧ c'.held = c.held := by
  cases h with
  | unreadable => exact .inr ⟨⟨_, rfl⟩, rfl⟩
  | report => exact .inr ⟨⟨_, rfl⟩, rfl⟩
  | samples => exact .inl ⟨rfl, rfl⟩

/-- A channel that held nothing holds the packet of samples in the frame, if that is
what it holds. -/
theorem Taken.held_eq (h : Taken order wireItem tickRate index c frame rest c' fetched)
    (hvacant : c.held = none) : c'.held = packetIn order wireItem tickRate c.lastCount frame := by
  cases h with
  | unreadable hcontent => rw [packetIn, hcontent]; exact hvacant
  | report hcontent => rw [packetIn, hcontent]; exact hvacant
  | samples hcontent time htime hframe => rw [packetIn, hcontent, hframe]

theorem Taken.condition_eq (h : Taken order wireItem tickRate index c frame rest c' fetched) :
    fetched.condition? = conditionIn order tickRate index frame := by
  cases h with
  | unreadable hcontent => rw [conditionIn, hcontent]; rfl
  | report hcontent time htime => rw [conditionIn, hcontent, htime]; rfl
  | samples hcontent => rw [conditionIn, hcontent]; rfl

/-- A packet that is used up is given back. -/
theorem advance_of_used {p : HeldPacket} {count : Nat} (hp : c.held = some p)
    (hused : (p.advance count).remaining = 0) :
    c.advance count = ({ c with held := none }, some p.header.endOfBurst) := by
  simp only [advance, hp, hused, if_true]
  rfl

theorem advance_of_left {p : HeldPacket} {count : Nat} (hp : c.held = some p)
    (hleft : (p.advance count).remaining ≠ 0) :
    c.advance count = ({ c with held := some (p.advance count) }, none) := by
  simp only [advance, hp, if_neg hleft]

end Channel
end SampleStream.Receive

namespace SampleStream.Receiver
open Receive

/-! ## Streams -/

/-- What a stream keeps from its set-up on. -/
def setup (r : Receiver) : Receiver :=
  { r with
    channels := [], pending := none, mode := .idle, markers := [], warnings := [], issued := [] }

theorem order_of_setup {r r' : Receiver} (h : r'.setup = r.setup) : r'.order = r.order :=
  show r'.setup.order = r.setup.order from congrArg Receiver.order h

theorem wireItem_of_setup {r r' : Receiver} (h : r'.setup = r.setup) : r'.wireItem = r.wireItem :=
  show r'.setup.wireItem = r.setup.wireItem from congrArg Receiver.wireItem h

theorem hostItem_of_setup {r r' : Receiver} (h : r'.setup = r.setup) : r'.hostItem = r.hostItem :=
  show r'.setup.hostItem = r.setup.hostItem from congrArg Receiver.hostItem h

theorem tickRate_of_setup {r r' : Receiver} (h : r'.setup = r.setup) : r'.tickRate = r.tickRate :=
  show r'.setup.tickRate = r.setup.tickRate from congrArg Receiver.tickRate h

theorem sampleRate_of_setup {r r' : Receiver} (h : r'.setup = r.setup) :
    r'.sampleRate = r.sampleRate :=
  show r'.setup.sampleRate = r.setup.sampleRate from congrArg Receiver.sampleRate h

theorem alignmentThreshold_of_setup {r r' : Receiver} (h : r'.setup = r.setup) :
    r'.alignmentThreshold = r.alignmentThreshold :=
  show r'.setup.alignmentThreshold = r.setup.alignmentThreshold from
    congrArg Receiver.alignmentThreshold h

theorem restart_eq (r : Receiver) : ∃ issued, r.restart = { r with issued } := by
  unfold restart issue
  split
  · split
    · exact ⟨_, rfl⟩
    · exact ⟨r.issued, rfl⟩
  · exact ⟨r.issued, rfl⟩

/-- The stream after one of its channels took a frame. -/
structure Took (r : Receiver) (index : Nat) (c : Channel) (frame : Bytes) (rest : List Bytes)
    (r' : Receiver) (found : Option Condition) : Prop where
  channels : ∃ c' fetched,
    Channel.Taken r.order r.wireItem r.tickRate index c frame rest c' fetched ∧
    r'.channels = r.channels.set index c' ∧ found = fetched.condition?
  markers : r'.markers = r.markers ++ (contentOf r.order frame).markers c.lastCount
  warnings : r'.warnings = r.warnings
  pending : r'.pending = r.pending
  mode : r'.mode = r.mode
  setup : r'.setup = r.setup

variable {r r' : Receiver} {index : Nat} {c : Channel} {outcome : Outcome}

theorem Took.found_eq {frame : Bytes} {rest : List Bytes} {found : Option Condition}
    (h : r.Took index c frame rest r' found) :
    found = conditionIn r.order r.tickRate index frame := by
  obtain ⟨c', fetched, htaken, -, rfl⟩ := h.channels
  exact htaken.condition_eq

theorem fetch_of_frame {frame : Bytes} {rest : List Bytes}
    (hlink : c.link.frames = frame :: rest) (h : r.fetch index c = some (r', outcome)) :
    ∃ found, outcome = .ok found ∧ r.Took index c frame rest r' found := by
  simp only [fetch, bind, Option.bind_eq_some_iff] at h
  obtain ⟨result, hresult, h⟩ := h
  obtain ⟨c', fetched, rfl, htaken⟩ := Channel.fetch_of_frame hlink hresult
  cases htaken with
  | unreadable hcontent =>
    cases h
    exact ⟨_, rfl, ⟨_, _, .unreadable hcontent, rfl, rfl⟩, by simp [hcontent, Content.markers],
      rfl, rfl, rfl, rfl⟩
  | @report code hcontent time htime =>
    by_cases hcode : code = .overflow
    · subst hcode
      simp only [if_true, pure, Option.some.injEq] at h
      obtain ⟨issued, hrestart⟩ := restart_eq
        { r with
          channels := r.channels.set index { c.left rest with lastCount := none }
          markers := r.markers ++ [.overflow] }
      rw [hrestart] at h
      cases h
      exact ⟨_, rfl, ⟨_, _, .report hcontent time htime, rfl, rfl⟩,
        by simp [hcontent, Content.markers], rfl, rfl, rfl, rfl⟩
    · simp only [hcode, if_false, pure, Option.some.injEq] at h
      cases h
      refine ⟨_, rfl, ⟨_, _, .report hcontent time htime, ?_, rfl⟩,
        by simp [hcontent, Content.markers, hcode], rfl, rfl, rfl, rfl⟩
      simp [hcode]
  | samples hcontent time htime hframe =>
    cases h
    refine ⟨_, rfl, ⟨_, _, .samples hcontent time htime hframe, rfl, rfl⟩, ?_, rfl, rfl, rfl, rfl⟩
    rw [hcontent]
    rfl

theorem fetch_of_empty (hc : r.channels[index]? = some c) (hlink : c.link.frames = [])
    (h : r.fetch index c = some (r', outcome)) :
    outcome = .error .linkClosed ∨
      r' = r ∧ outcome = .ok (some { code := .timeout, channel := index }) := by
  simp only [fetch, bind, Option.bind_eq_some_iff] at h
  obtain ⟨result, hresult, h⟩ := h
  rcases Channel.fetch_of_empty hlink hresult with rfl | rfl
  · cases h
    exact .inl rfl
  · have hset : r.channels.set index c = r.channels := by
      obtain ⟨hlt, hget⟩ := List.getElem?_eq_some_iff.mp hc
      rw [← hget, List.set_getElem_self]
    simp only [hset, reduceCtorEq, if_false, pure, Option.some.injEq, Prod.mk.injEq] at h
    exact .inr ⟨h.1.symm, h.2.symm⟩

end SampleStream.Receiver
