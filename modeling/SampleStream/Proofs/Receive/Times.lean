import SampleStream.Proofs.Receive.Session

/-!
# The time of the first sample

A call that returns samples tells where the first of them begins in the packet of the first
channel and whether a burst starts there. Every packet has its time from the call that took
it off its link, by the tick rate of then (`Reachable.brought`). The time that is told is
that of the packet, moved on to the sample, as long as the packet has one. If it has none,
the time is left over from the packets that the call described before and that gave no
sample (`recv_tells_first`).
-/

namespace SampleStream.Receiver
open Receive

/-! ## Where packets come from -/

/-- A call on `s`, which left the stream as `s'`, took the packet off the link of a channel. It
was in one of the frames on that link, and its time is by the tick rate of `s`. -/
inductive Brings (s s' : Receiver) (index : Nat) (p : HeldPacket) : Prop where
  | intro {buffers : List Bytes} {wanted : Nat} {onePacket : Bool} {answer : Answer}
    {c c' : Channel} {taken : List Bytes} {frame : Bytes}
    (hrecv : s.recv buffers wanted onePacket = some answer) (hafter : answer.1 = s')
    (hc : s.channels[index]? = some c) (hc' : s'.channels[index]? = some c')
    (htaken : c.link.frames = taken ++ c'.link.frames) (hframe : frame ∈ taken)
    (hcame : p.CameIn s.order s.tickRate frame)

/-- One of the calls that led from `r₀` to `r` took the packet. -/
def Brought (r₀ r : Receiver) (index : Nat) (p : HeldPacket) : Prop :=
  ∃ s s', Reachable r₀ s ∧ Brings s s' index p ∧ Reachable s' r

section
variable {r₀ r r' : Receiver} {buffers : List Bytes} {wanted index : Nat} {onePacket : Bool}
  {es : List Event} {shares : List Share} {met : Option Condition} {call : Call}
  {p p' : HeldPacket}

theorem Brings.of_same {s s' : Receiver} (h : Brings s s' index p) (hsame : p'.Same p) :
    Brings s s' index p' := by
  obtain ⟨hrecv, hafter, hc, hc', htaken, hframe, hcame⟩ := h
  exact ⟨hrecv, hafter, hc, hc', htaken, hframe, hcame.of_same hsame⟩

theorem Brought.of_same (h : Brought r₀ r index p) (hsame : p'.Same p) :
    Brought r₀ r index p' := by
  obtain ⟨s, s', hs, hbrings, hs'⟩ := h
  exact ⟨s, s', hs, hbrings.of_same hsame, hs'⟩

/-- What was brought stays so when the stream goes on. -/
theorem Brought.onward (h : Brought r₀ r index p)
    (hnext : ∀ {s : Receiver}, Reachable s r → Reachable s r') : Brought r₀ r' index p := by
  obtain ⟨s, s', hs, hbrings, hs'⟩ := h
  exact ⟨s, s', hs, hbrings, hnext hs'⟩

/-- The time of a packet that was brought is there just if its header gives one. -/
theorem Brought.isSome_time (h : Brought r₀ r index p) :
    p.time.isSome = p.header.fractionalTime.isSome := by
  obtain ⟨_, _, -, hbrings, -⟩ := h
  cases hbrings with
  | intro _ _ _ _ _ _ hcame => exact hcame.isSome_time

/-- The frames that went off the links are those that the events take. -/
def Empties (r : Receiver) (es : List Event) (r' : Receiver) : Prop :=
  ∀ {index : Nat} {c : Channel}, r.channels[index]? = some c → ∃ c',
    r'.channels[index]? = some c' ∧
      c.link.frames = es.filterMap (Event.taking index) ++ c'.link.frames

theorem History.empties (h : History r es r')
    (hquiet : ∀ index, es.filterMap (Event.arrival index) = []) : r.Empties es r' := by
  intro index c hc
  obtain ⟨c', hc', hlink⟩ := h.taking hc
  rw [hquiet, List.append_nil] at hlink
  exact ⟨c', hc', hlink⟩

/-- A packet that a channel holds after a part of a call was brought by the call, or it was
held before. -/
theorem History.brought {x : Receiver} {before : List Event} {answer : Answer} {c : Channel}
    (h : History r before x) (hbefore : before <+: es) (hreach : Reachable r₀ r)
    (hheld : ∀ {d : Channel} {q : HeldPacket}, r.channels[index]? = some d → d.held = some q →
      Brought r₀ r index q)
    (hrecv : r.recv buffers wanted onePacket = some answer) (hempties : r.Empties es answer.1)
    (hc : x.channels[index]? = some c) (hp : c.held = some p) : Brought r₀ answer.1 index p := by
  rcases h.source hc hp with ⟨d, q, hd, hq, hsame⟩ | ⟨frame, hframe, hcame⟩
  · exact ((hheld hd hq).onward fun h => .call h hrecv).of_same hsame
  · obtain ⟨hlt, -⟩ := List.getElem?_eq_some_iff.mp hc
    rw [h.length_channels] at hlt
    have hd := List.getElem?_eq_getElem hlt
    obtain ⟨c', hc', hlink⟩ := hempties hd
    have htaken := (hbefore.filterMap (Event.taking index)).subset hframe
    exact ⟨r, answer.1, hreach, ⟨hrecv, rfl, hd, hc', hlink, htaken, hcame⟩, .start⟩

/-- Every packet that a reachable stream holds was brought by a call on the way to it. -/
theorem Reachable.brought (h : Reachable r₀ r) (hfresh : ∀ c ∈ r₀.channels, r₀.Fresh c)
    {c : Channel} (hc : r.channels[index]? = some c) (hp : c.held = some p) :
    Brought r₀ r index p := by
  induction h generalizing c p with
  | start =>
    rw [(hfresh c (List.mem_of_getElem? hc)).held] at hp
    cases hp
  | @linked r _ channel f ih =>
    obtain ⟨hlt, -⟩ := List.getElem?_eq_some_iff.mp hc
    rw [onLink, List.length_modify] at hlt
    have hd := List.getElem?_eq_getElem hlt
    rw [getElem?_onLink r f hd, Option.some.injEq] at hc
    have hsame : r.channels[index].held = some p := by
      rw [← hp, ← hc]
      split <;> rfl
    exact (ih hd hsame).onward fun h => .linked h channel f
  | @command r _ command ih =>
    obtain ⟨mode, issued, hcommand⟩ := command_eq r command
    rw [hcommand] at hc
    exact (ih hc hp).onward fun h => .command h command
  | rates _ tickRate sampleRate ih => exact (ih hc hp).onward fun h => .rates h tickRate sampleRate
  | @call r hreach _ _ _ answer hrecv ih =>
    obtain ⟨es, s, warnings, hhistory, hquiet, hafter⟩ :=
      recv_history (hreach.settled (settled_of_fresh hfresh)) hrecv
    have hempties : r.Empties es answer.1 := by
      rw [hafter]
      exact hhistory.empties hquiet
    rw [hafter] at hc
    exact hhistory.brought List.prefix_rfl hreach ih hrecv hempties hc hp

/-- The packets that a call describes were brought by it or before. -/
theorem Called.brought (h : Called r call es shares met r') (hreach : Reachable r₀ r)
    (hfresh : ∀ c ∈ r₀.channels, r₀.Fresh c)
    (hrecv : r.recv call.buffers call.wanted call.onePacket = some (r', .ok call.got)) :
    ∀ q ∈ describedIn shares, Brought r₀ r' 0 q := by
  have hsettled := hreach.settled (settled_of_fresh hfresh)
  have hprogress := h.progress hsettled
  intro q hq
  obtain ⟨s, hs, hq⟩ := List.mem_filterMap.mp hq
  cases h.handed hsettled s (mem_of_mem_leading hs) with
  | @intro before behind x _ _ _ _ hevents hpart hfull _ =>
    have hheld : x.held[0]? = some q := by rw [← List.head?_eq_getElem?]; exact hq
    obtain ⟨c, hc, hp⟩ := hfull.exists_channel hheld
    exact hpart.brought ⟨behind, hevents.symm⟩ hreach (hreach.brought hfresh) hrecv
      (hprogress.history.empties hprogress.quiet) hc hp

/-! ## The first sample -/

/-- The first sample of shares is in `p`, a packet of the first channel, which held the
packets `passed` in the shares without samples before. -/
inductive Leads (shares : List Share) (passed : List HeldPacket) (p : HeldPacket) : Prop where
  | intro {before rest : List Share} {share : Share} (hshares : shares = before ++ share :: rest)
    (hbefore : ∀ s ∈ before, s.count = 0) (hpassed : passed = before.filterMap (·.held.head?))
    (hcount : 0 < share.count) (hheld : share.held.head? = some p)

theorem bytesOf_of_zero {shares : List Share} (h : ∀ s ∈ shares, s.count = 0)
    (converter : Sample.Converter) (index : Nat) : bytesOf converter index shares = [] := by
  rw [bytesOf, List.flatMap_eq_nil_iff]
  intro s hs
  rw [h s hs]
  split <;> rfl

/-- The first bytes are those of the sample where the packet stands. -/
theorem Leads.bytes {passed : List HeldPacket} {p : HeldPacket} (h : Leads shares passed p)
    {converter : Sample.Converter} {wire host : Nat} (hreads : converter.Reads wire host) :
    (bytesOf converter 0 shares).take host = converter.sampleAt p.payload p.cursor := by
  obtain @⟨before, rest, share, rfl, hbefore, -, hcount, hheld⟩ := h
  obtain ⟨n, hn⟩ := Nat.exists_eq_succ_of_ne_zero (Nat.ne_of_gt hcount)
  have hnone : converter.run p.payload p.cursor 0 = [] := rfl
  have hone : bytesOf converter 0 [share] = converter.sampleAt p.payload p.cursor ++
      converter.run p.payload (p.cursor + 1) n := by
    have haround := converter.run_around p.payload p.cursor 0 n
    rw [hnone, Nat.zero_add, List.nil_append] at haround
    simp only [bytesOf, List.flatMap_singleton, ← List.head?_eq_getElem?, hheld, hn]
    exact haround
  rw [bytesOf_append, bytesOf_of_zero hbefore, List.nil_append, ← List.singleton_append,
    bytesOf_append, hone, List.append_assoc, List.take_left' (hreads.length_sampleAt ..)]

/-- A call with samples has a first one. -/
theorem Called.leads (h : Called r call es shares met r') (hsettled : r.Settled)
    (hsome : 0 < call.got.samples) :
    ∃ passed p, Leads shares passed p ∧ describedIn shares = passed ++ [p] := by
  rw [h.samples] at hsome
  obtain ⟨before, share, rest, hshares, hbefore, hcount, hleading⟩ := exists_leading hsome
  have hmem : share ∈ shares := by simp [hshares]
  have hheld : share.held ≠ [] := by
    cases h.handed hsettled share hmem with
    | intro _ _ _ hhands => exact hhands.held_ne_nil
  obtain ⟨p, others, hp⟩ := List.exists_cons_of_ne_nil hheld
  have hhead : share.held.head? = some p := by rw [hp]; rfl
  refine ⟨before.filterMap (·.held.head?), p, .intro hshares hbefore rfl hcount hhead, ?_⟩
  rw [describedIn, hleading, List.filterMap_append]
  simp [hhead]

/-- What a call tells of its first sample, which is in the packet `p` of the first channel. -/
structure TellsFirst (r : Receiver) (m : Metadata) (passed : List HeldPacket) (p : HeldPacket) :
    Prop where
  channel : m.channel = 0
  fragmentOffset : m.fragmentOffset = p.cursor
  startOfBurst : m.startOfBurst = (p.header.startOfBurst && p.cursor == 0)
  /-- The time of the packet, moved on to the sample. -/
  timed : ∀ time, p.time = some time → ∃ t,
    SampleTime r.sampleRate p.cursor time t ∧ m.time = some t
  /-- Without one, the time that is left over. -/
  untimed : p.time = none → r.TellsTime passed m.time

theorem Tells.first {ps : List HeldPacket} {p : HeldPacket} {m : Metadata}
    (h : r.Tells (ps ++ [p]) m) : r.TellsFirst m ps p where
  channel := h.channel
  fragmentOffset := h.fragmentOffset p List.getLast?_concat
  startOfBurst := h.startOfBurst p List.getLast?_concat
  timed time htime := by
    have htold := h.time
    rw [TellsTime, lastTimed_append, htime] at htold
    exact htold
  untimed hnone := by
    have htold := h.time
    rw [TellsTime, lastTimed_append, hnone] at htold
    exact htold

/-- There is a time left over just if one of the packets had one. -/
theorem TellsTime.eq_none_iff {ps : List HeldPacket} {time : Option Time}
    (h : r.TellsTime ps time) : time = none ↔ ∀ q ∈ ps, q.time = none := by
  have hlast : lastTimed ps = none ↔ ∀ q ∈ ps, q.time = none := by
    rw [lastTimed, List.getLast?_eq_none_iff, List.filterMap_eq_nil_iff]
    simp
  rw [← hlast]
  unfold TellsTime at h
  cases hps : lastTimed ps with
  | none =>
    rw [hps] at h
    simp [h]
  | some x =>
    rw [hps] at h
    obtain ⟨t, -, rfl⟩ := h
    simp

/-- A time is told when the packet has one and only then, unless one is left over. -/
theorem TellsFirst.isSome_time_iff {passed : List HeldPacket} {p : HeldPacket} {m : Metadata}
    (h : r.TellsFirst m passed p) (hbrought : ∀ q ∈ passed ++ [p], Brought r₀ r' 0 q) :
    m.time.isSome = p.header.fractionalTime.isSome ↔
      p.header.fractionalTime.isSome ∨ ∀ q ∈ passed, q.header.fractionalTime = none := by
  have hp := (hbrought p (by simp)).isSome_time
  have hpassed : (∀ q ∈ passed, q.header.fractionalTime = none) ↔ ∀ q ∈ passed, q.time = none := by
    refine forall₂_congr fun q hq => ?_
    have hsame := (hbrought q (List.mem_append_left _ hq)).isSome_time
    rw [← Option.isNone_iff_eq_none, ← Option.isNone_iff_eq_none, ← Option.not_isSome,
      ← Option.not_isSome, hsame]
  rw [hpassed, ← hp]
  cases htime : p.time with
  | none => simpa [← Option.isNone_iff_eq_none] using (h.untimed htime).eq_none_iff
  | some time =>
    obtain ⟨t, -, hm⟩ := h.timed time htime
    simp [hm]

/-- A call that returns samples tells of the first of them what its packet on the first
channel says: the place, whether a burst starts there, and the time, moved on to the sample.
The packet has the time of its header, at the tick rate of the call that took it. A time is
told when the packet has one and only then, just if the packet has one or none of those
before it in the call had. -/
theorem recv_tells_first {o : StreamOptions} {settings : Settings} {links : List Link}
    (hbuilt : Built o settings links r₀) (hreach : Reachable r₀ r)
    (hrecv : r.recv call.buffers call.wanted call.onePacket = some (r', .ok call.got))
    (hsome : 0 < call.got.samples) :
    ∃ es shares met passed p c, Called r call es shares met r' ∧ Leads shares passed p ∧
      (∀ q ∈ passed ++ [p], Brought r₀ r' 0 q) ∧ r.channels.head? = some c ∧
      (call.delivered 0 r.hostItem).take r.hostItem = c.converter.sampleAt p.payload p.cursor ∧
      r.TellsFirst call.got.metadata passed p ∧
      (call.got.metadata.time.isSome = p.header.fractionalTime.isSome ↔
        p.header.fractionalTime.isSome ∨ ∀ q ∈ passed, q.header.fractionalTime = none) := by
  have hsettled : r.Settled := hreach.settled (settled_of_fresh hbuilt.fresh)
  have hsound := hreach.sound hbuilt.sound
  have hlength := hreach.length_channels (settled_of_fresh hbuilt.fresh)
  have hchannels := channels_ne_nil hlength hbuilt.channels_ne_nil
  obtain ⟨c, cs, hc⟩ := List.exists_cons_of_ne_nil hchannels
  have hfirst : r.channels[0]? = some c := by rw [hc]; rfl
  have hreads : c.converter.Reads _ r.hostItem :=
    hsound.hostItem ▸ (hsound.channels c (List.mem_of_getElem? hfirst)).reads
  obtain ⟨es, shares, met, hcalled⟩ := recv_called hsettled hchannels hrecv
  obtain ⟨passed, p, hleads, hdescribed⟩ := hcalled.leads hsettled hsome
  have htells := hcalled.tells hsome
  have hbrought : ∀ q ∈ passed ++ [p], Brought r₀ r' 0 q := by
    rw [← hdescribed]
    exact hcalled.brought hreach hbuilt.fresh hrecv
  rw [hdescribed] at htells
  refine ⟨es, shares, met, passed, p, c, hcalled, hleads, hbrought, ?_, ?_,
    htells.first, ?_⟩
  · rw [hc]
    rfl
  · rw [hcalled.delivered hsettled hfirst hreads]
    exact hleads.bytes hreads
  · exact htells.first.isSome_time_iff hbrought

end

/-- A packet of time 7 without samples. -/
def emptyFrame : Bytes := [0x10, 0x10, 0, 4, 0, 0, 0, 0, 0, 0, 0, 0, 0, 0, 0, 7]

/-- One sample without a time. -/
def untimedFrame : Bytes := [0x10, 1, 0, 3, 0, 0, 0, 0, 0, 1, 0, 2]

/-- The packet without samples came in, and then the sample. -/
def untimedBehindEmpty : Receiver :=
  (oneChannel.onLink 0 (·.carry emptyFrame)).onLink 0 (·.carry untimedFrame)

/-- Two samples of time 8 came in behind the packet without samples. -/
def timedBehindEmpty : Receiver :=
  (oneChannel.onLink 0 (·.carry emptyFrame)).onLink 0 (·.carry
    [0x10, 0x11, 0, 6, 0, 0, 0, 0, 0, 0, 0, 0, 0, 0, 0, 8, 0, 1, 0, 2, 0, 3, 0, 4])

/-- Of the two samples the first is told at their own time. -/
theorem recv_tells_first_behind_empty :
    ∃ r' got passed p, Reachable oneChannel timedBehindEmpty ∧
      timedBehindEmpty.recv [List.replicate 8 0] 2 false = some (r', .ok got) ∧
      got.samples = 2 ∧ got.metadata.time.isSome = true ∧
      (∀ q ∈ passed ++ [p], Brought oneChannel r' 0 q) ∧
      timedBehindEmpty.TellsFirst got.metadata passed p ∧
      (got.metadata.time.isSome = p.header.fractionalTime.isSome ↔
        p.header.fractionalTime.isSome ∨ ∀ q ∈ passed, q.header.fractionalTime = none) := by
  have hreach : Reachable oneChannel timedBehindEmpty := .linked (.linked .start 0 _) 0 _
  let told (_ : Receiver) (got : Received) : Option (Nat × Bool) :=
    some (got.samples, got.metadata.time.isSome)
  have hseen : (timedBehindEmpty.recv [List.replicate 8 0] 2 false).bind (fun a =>
      a.2.toOption.bind (told a.1)) = some (2, true) := by decide +kernel
  obtain ⟨r', got, hrecv, hgot⟩ := exists_of_answer hseen
  simp only [told, Option.some.injEq, Prod.mk.injEq] at hgot
  obtain ⟨hsamples, htold⟩ := hgot
  have hsome : 0 < got.samples := hsamples ▸ Nat.two_pos
  obtain ⟨es, shares, met, passed, p, c, -, -, hbrought, -, -, htells, htime⟩ :=
    @recv_tells_first oneChannel timedBehindEmpty r' ⟨_, _, _, got⟩ _ _ _ built_oneChannel hreach
      hrecv hsome
  exact ⟨r', got, passed, p, hreach, hrecv, hsamples, htold, hbrought, htells, htime⟩

/-- The sample without a time is told at the time of the packet without samples. -/
theorem recv_tells_time_left_over :
    ∃ r' got, Reachable oneChannel untimedBehindEmpty ∧
      (packetIn .big 4 oneChannel.tickRate none emptyFrame).map
        (fun p => (p.samples, p.header.fractionalTime)) = some (0, some 7) ∧
      (packetIn .big 4 oneChannel.tickRate (some 0) untimedFrame).map
        (fun p => (p.samples, p.header.fractionalTime)) = some (1, none) ∧
      untimedBehindEmpty.recv [List.replicate 4 0] 1 false = some (r', .ok got) ∧
      got.samples = 1 ∧ got.buffers = [[1, 0, 2, 0]] ∧ got.metadata.time.isSome = true := by
  have hreach : Reachable oneChannel untimedBehindEmpty := .linked (.linked .start 0 _) 0 _
  let told (_ : Receiver) (got : Received) : Option (Nat × List Bytes × Bool) :=
    some (got.samples, got.buffers, got.metadata.time.isSome)
  have hseen : (untimedBehindEmpty.recv [List.replicate 4 0] 1 false).bind (fun a =>
      a.2.toOption.bind (told a.1)) = some (1, [[1, 0, 2, 0]], true) := by decide +kernel
  obtain ⟨r', got, hrecv, hgot⟩ := exists_of_answer hseen
  simp only [told, Option.some.injEq, Prod.mk.injEq] at hgot
  exact ⟨r', got, hreach, by decide +kernel, by decide +kernel, hrecv, hgot⟩

end SampleStream.Receiver
