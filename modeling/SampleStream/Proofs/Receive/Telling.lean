import SampleStream.Proofs.Receive.Course

/-!
# What a call tells

The answer of a call follows from its shares. Its metadata describe the packets of the first
channel one after the other, up to the first share with samples (`Called.tells`), and its
buffers have the samples of the shares one behind the other (`Called.delivered`).
-/

namespace SampleStream.Receiver
open Receive

/-! ## What a call tells of its samples -/

/-- The time of a sample with `cursor` samples of its packet before it, where the packet has
the time `time`: those samples later, as long as samples have a rate. -/
structure SampleTime (sampleRate : Float) (cursor : Nat) (time told : Time) : Prop where
  same : ¬ (0 < sampleRate ∧ 0 < cursor) → told = time
  later : 0 < sampleRate → 0 < cursor →
    time.addSeconds (Real.ofNat cursor / sampleRate) = some told

/-- The metadata `m'` come from `m` by describing the samples that begin in the packet `p`
of the first channel. -/
structure Described (r : Receiver) (p : HeldPacket) (m m' : Metadata) : Prop where
  channel : m'.channel = 0
  fragmentOffset : m'.fragmentOffset = p.cursor
  startOfBurst : m'.startOfBurst = (p.header.startOfBurst && p.cursor == 0)
  outOfSequence : m'.outOfSequence = r.held.any HeldPacket.outOfSequence
  code : m'.code = if m'.outOfSequence = true then .overflow else m.code
  moreFragments : m'.moreFragments = m.moreFragments
  endOfBurst : m'.endOfBurst = m.endOfBurst
  /-- A packet without a time leaves the time that was there. -/
  time : (p.time = none ∧ m'.time = m.time) ∨
    ∃ t t', p.time = some t ∧ SampleTime r.sampleRate p.cursor t t' ∧ m'.time = some t'

/-- The last of the packets that has a time, and the time. -/
def lastTimed (ps : List HeldPacket) : Option (HeldPacket × Time) :=
  (ps.filterMap fun p => p.time.map fun t => (p, t)).getLast?

/-- The time that is told when these packets are described one after the other. -/
def TellsTime (r : Receiver) (ps : List HeldPacket) (told : Option Time) : Prop :=
  match lastTimed ps with
  | none => told = none
  | some (p, t) => ∃ t', SampleTime r.sampleRate p.cursor t t' ∧ told = some t'

/-- The metadata tell the start of what was described, packet after packet of the first
channel: the place is that of the last packet, the time that of the last one with a time. -/
structure Tells (r : Receiver) (ps : List HeldPacket) (m : Metadata) : Prop where
  channel : m.channel = 0
  time : r.TellsTime ps m.time
  fragmentOffset : ∀ p, ps.getLast? = some p → m.fragmentOffset = p.cursor
  startOfBurst : ∀ p, ps.getLast? = some p →
    m.startOfBurst = (p.header.startOfBurst && p.cursor == 0)

/-- Nothing is told of how the samples end, and no condition but a gap. -/
structure Begun (m : Metadata) : Prop where
  moreFragments : m.moreFragments = false
  endOfBurst : m.endOfBurst = false
  code : m.code = if m.outOfSequence then .overflow else .none

/-- Nothing is told but where the samples begin. -/
structure Calm (m : Metadata) : Prop extends Begun m where
  outOfSequence : m.outOfSequence = false

section
variable {r₀ r s r' : Receiver} {call : Call} {buffers filled : List Bytes} {wanted n : Nat}
  {onePacket : Bool} {es : List Event} {shares : List Share} {met : Option Condition}
  {got got' : Received} {m m' metadata : Metadata} {p : HeldPacket} {ps : List HeldPacket}

theorem sampleTime_of_timeOf {t t' : Time} (h : r.timeOf p t = some t') :
    SampleTime r.sampleRate p.cursor t t' := by
  unfold timeOf at h
  split at h
  · rename_i hmoves
    exact ⟨fun hstays => absurd hmoves hstays, fun _ _ => h⟩
  · rename_i hstays
    exact ⟨fun _ => (Option.some.inj h).symm, fun hrate hcursor => absurd ⟨hrate, hcursor⟩ hstays⟩

theorem lastTimed_append (ps : List HeldPacket) (p : HeldPacket) :
    lastTimed (ps ++ [p]) = (p.time.map fun t => (p, t)).or (lastTimed ps) := by
  rw [lastTimed, List.filterMap_append, List.getLast?_append]
  cases htime : p.time <;> simp [lastTimed, htime]

theorem describe_described (hfull : r.Full) (hsome : r.held ≠ []) (h : r.describe m = some m') :
    ∃ p rest, r.held = p :: rest ∧ r.Described p m m' := by
  cases hchannels : r.channels with
  | nil => exact absurd (by rw [held, hchannels]; rfl) hsome
  | cons c cs =>
    obtain ⟨p, hp⟩ := Option.isSome_iff_exists.mp (hfull c (hchannels ▸ List.mem_cons_self))
    have hheld : r.held = p :: cs.filterMap Channel.held := by
      rw [held, hchannels, List.filterMap_cons_some hp]
    refine ⟨p, _, hheld, ?_⟩
    have hfirst : r.channels.head?.bind Channel.held = some p := by
      rw [hchannels]
      exact hp
    unfold describe at h
    rw [hfirst] at h
    dsimp only at h
    cases htime : p.time with
    | none =>
      rw [htime] at h
      cases h
      exact ⟨rfl, rfl, rfl, rfl, rfl, rfl, rfl, .inl ⟨htime, rfl⟩⟩
    | some t =>
      rw [htime] at h
      obtain ⟨t', ht', h⟩ := Option.bind_eq_some_iff.mp h
      cases h
      exact ⟨rfl, rfl, rfl, rfl, rfl, rfl, rfl,
        .inr ⟨t, t', htime, sampleTime_of_timeOf ht', rfl⟩⟩

theorem Tells.described (h : r.Tells ps m) (hsetup : s.setup = r.setup)
    (hdescribed : s.Described p m m') : r.Tells (ps ++ [p]) m' := by
  refine ⟨hdescribed.channel, ?_, fun q hq => ?_, fun q hq => ?_⟩
  · rw [TellsTime, lastTimed_append]
    rcases hdescribed.time with ⟨hnone, hsame⟩ | ⟨t, t', ht, ht', hnew⟩
    · rw [hnone, hsame]
      exact h.time
    · rw [sampleRate_of_setup hsetup] at ht'
      rw [ht]
      exact ⟨t', ht', hnew⟩
  · rw [List.getLast?_concat, Option.some.injEq] at hq
    rw [← hq]
    exact hdescribed.fragmentOffset
  · rw [List.getLast?_concat, Option.some.injEq] at hq
    rw [← hq]
    exact hdescribed.startOfBurst

/-- Only the part of the metadata counts that says where the samples begin. -/
theorem Tells.congr (h : r.Tells ps m) (hchannel : m'.channel = m.channel)
    (htime : m'.time = m.time) (hoffset : m'.fragmentOffset = m.fragmentOffset)
    (hstart : m'.startOfBurst = m.startOfBurst) : r.Tells ps m' where
  channel := hchannel.trans h.channel
  time := htime ▸ h.time
  fragmentOffset q hq := hoffset.trans (h.fragmentOffset q hq)
  startOfBurst q hq := hstart.trans (h.startOfBurst q hq)

theorem Tells.last (h : r.Tells ps m) (used : Option Bool) : r.Tells ps (lastMetadata used m) := by
  unfold lastMetadata
  split <;> exact h.congr rfl rfl rfl rfl

@[simp] theorem code_lastMetadata (used : Option Bool) (m : Metadata) :
    (lastMetadata used m).code = m.code := by
  unfold lastMetadata
  split <;> rfl

@[simp] theorem outOfSequence_lastMetadata (used : Option Bool) (m : Metadata) :
    (lastMetadata used m).outOfSequence = m.outOfSequence := by
  unfold lastMetadata
  split <;> rfl

theorem Hands.held_ne_nil (h : r.Hands wanted got n metadata filled) : r.held ≠ [] := by
  obtain ⟨remaining, hleast, -⟩ := h.count
  intro hnil
  simp [hnil] at hleast

/-- What is handed out is described as long as there are no samples before. -/
theorem Hands.describes (h : r.Hands wanted got n metadata filled) (hfull : r.Full) :
    ∃ p rest, r.held = p :: rest ∧
      ((got.samples = 0 ∧ r.Described p got.metadata metadata) ∨
        (0 < got.samples ∧ metadata = got.metadata)) := by
  have hdescribed := h.described
  unfold describeFirst at hdescribed
  split at hdescribed
  · rename_i hnone
    obtain ⟨p, rest, hheld, hp⟩ := describe_described hfull h.held_ne_nil hdescribed
    exact ⟨p, rest, hheld, .inl ⟨hnone, hp⟩⟩
  · rename_i hsome
    cases hdescribed
    obtain ⟨p, rest, hheld⟩ := List.exists_cons_of_ne_nil h.held_ne_nil
    exact ⟨p, rest, hheld, .inr ⟨Nat.pos_of_ne_zero hsome, rfl⟩⟩

/-- What is told of samples that are handed out, before it is known how they end. -/
theorem Hands.begun (h : r.Hands wanted got n metadata filled) (hfull : r.Full)
    (hcalm : Calm got.metadata) :
    Begun metadata ∧ metadata.outOfSequence = r.held.any HeldPacket.outOfSequence := by
  obtain ⟨p, rest, -, ⟨-, hp⟩ | ⟨hsome, rfl⟩⟩ := h.describes hfull
  · refine ⟨⟨hp.moreFragments.trans hcalm.moreFragments, hp.endOfBurst.trans hcalm.endOfBurst, ?_⟩,
      hp.outOfSequence⟩
    have hcode : got.metadata.code = .none := by
      rw [hcalm.code, hcalm.outOfSequence]
      rfl
    rw [hp.code, hcode]
  · have hnogap : r.held.any HeldPacket.outOfSequence = false := by
      rw [← Bool.not_eq_true]
      exact fun hgap => h.together ⟨hsome, hgap⟩
    exact ⟨hcalm.toBegun, by rw [hcalm.outOfSequence, hnogap]⟩

theorem Course.calm (h : Course r₀ buffers wanted onePacket es shares r got) :
    Calm got.metadata := by
  induction h with
  | start => exact ⟨⟨rfl, rfl, rfl⟩, rfl⟩
  | next _ hgathers hhands _ _ hnogap _ ih =>
    obtain ⟨hbegun, hsequence⟩ := hhands.begun (hgathers.full rfl) ih
    exact ⟨hbegun, hsequence.trans hnogap⟩

/-- The packets that a call has described, in order. -/
def describedIn (shares : List Share) : List HeldPacket :=
  (leading shares).filterMap fun s => s.held.head?

theorem Hands.tells (h : s.Hands wanted got n metadata filled) (hfull : s.Full)
    (hsetup : s.setup = r.setup) (hsamples : got.samples = samplesIn shares)
    (htells : r.Tells (describedIn shares) got.metadata) :
    r.Tells (describedIn (shares ++ [⟨s.held, n⟩])) metadata := by
  obtain ⟨p, rest, hheld, ⟨hnone, hp⟩ | ⟨hsome, rfl⟩⟩ := h.describes hfull
  · rw [hsamples] at hnone
    have hbefore : leading shares = shares := by
      simpa [leading] using leading_append_of_zero hnone []
    have hone : leading [(⟨s.held, n⟩ : Share)] = [⟨s.held, n⟩] := by
      simp [leading]
    have hall := htells.described hsetup hp
    rw [describedIn, hbefore] at hall
    rw [describedIn, leading_append_of_zero hnone, hone, List.filterMap_append]
    simpa [hheld] using hall
  · rw [hsamples] at hsome
    rw [describedIn, leading_append_of_pos hsome]
    exact htells

theorem Course.setup (h : Course r₀ buffers wanted onePacket es shares r got) :
    r.setup = r₀.setup := by
  induction h with
  | start => rfl
  | next _ hgathers _ _ _ _ _ ih => exact hgathers.history.setup.trans ih

theorem Course.tells (h : Course r₀ buffers wanted onePacket es shares r got) :
    r₀.Tells (describedIn shares) got.metadata := by
  induction h with
  | start =>
    refine ⟨rfl, rfl, fun p hp => ?_, fun p hp => ?_⟩ <;> cases hp
  | next h hgathers hhands _ _ _ _ ih =>
    exact hhands.tells (hgathers.full rfl) (hgathers.history.setup.trans h.setup) h.samples.1 ih

theorem Ends.samples (h : Ends wanted onePacket r got es shares met r' got') :
    got'.samples = got.samples + samplesIn shares := by
  cases h.answered with
  | same | told => rfl
  | handed => simp

theorem Called.samples (h : Called r call es shares met r') :
    call.got.samples = samplesIn shares := by
  cases h with
  | told _ hgot => rw [hgot]; rfl
  | took _ _ hcourse hends => rw [hends.samples, samplesIn_append, hcourse.samples.1]

/-- The samples that a call returns are told from where they begin. -/
theorem Called.tells (h : Called r call es shares met r') (hsome : 0 < call.got.samples) :
    r.Tells (describedIn shares) call.got.metadata := by
  cases h with
  | told _ hgot =>
    rw [hgot] at hsome
    cases hsome
  | @took _ _ shares shares' _ _ _ got _ _ hcourse hends =>
    have htells := hcourse.tells
    have hanswered := hends.answered
    generalize call.got = answer at hanswered hsome
    cases hanswered with
    | same =>
      rw [List.append_nil]
      exact htells
    | told _ hnone => exact absurd hsome (Nat.not_lt.mpr (Nat.le_of_eq hnone))
    | handed hgathers hhands =>
      have hsetup := hgathers.history.setup.trans hcourse.setup
      exact (hhands.tells (hgathers.full rfl) hsetup hcourse.samples.1 htells).last _

/-! ## What a call writes -/

theorem Full.map_held (h : r.Full) : r.held.map some = r.channels.map Channel.held := by
  rw [held, List.map_filterMap]
  unfold Full at h
  generalize r.channels = cs at h
  induction cs with
  | nil => rfl
  | cons c cs ih =>
    obtain ⟨p, hp⟩ := Option.isSome_iff_exists.mp (h c List.mem_cons_self)
    rw [List.filterMap_cons_some (b := some p) (by simp [hp]), List.map_cons, hp,
      ih fun d hd => h d (List.mem_cons_of_mem _ hd)]

/-- The packet of a channel is at the position of the channel. -/
theorem Full.getElem?_held (h : r.Full) {index : Nat} {c : Channel}
    (hc : r.channels[index]? = some c) : r.held[index]? = c.held := by
  have hsome := congrArg (·[index]?) h.map_held
  rw [List.getElem?_map, List.getElem?_map, hc] at hsome
  obtain ⟨p, hp⟩ := Option.isSome_iff_exists.mp (h c (List.mem_of_getElem? hc))
  simpa [hp] using hsome

/-- A packet held at a position is that of the channel there. -/
theorem Full.exists_channel (h : r.Full) {index : Nat} (hp : r.held[index]? = some p) :
    ∃ c, r.channels[index]? = some c ∧ c.held = some p := by
  have hlength : r.held.length = r.channels.length := by
    simpa using congrArg List.length h.map_held
  obtain ⟨hlt, -⟩ := List.getElem?_eq_some_iff.mp hp
  have hc := List.getElem?_eq_getElem (hlength ▸ hlt)
  exact ⟨_, hc, (h.getElem?_held hc).symm.trans hp⟩

/-- The host bytes of the samples of one channel in shares. -/
def bytesOf (converter : Sample.Converter) (index : Nat) (shares : List Share) : Bytes :=
  shares.flatMap fun s => match s.held[index]? with
    | some p => converter.run p.payload p.cursor s.count
    | none => []

theorem bytesOf_append (converter : Sample.Converter) (index : Nat) (shares shares' : List Share) :
    bytesOf converter index (shares ++ shares') =
      bytesOf converter index shares ++ bytesOf converter index shares' :=
  List.flatMap_append

/-- The buffer of a channel has the samples of the shares, and behind them it is as it
was. -/
structure Filled (host index : Nat) (converter : Sample.Converter) (buffer : Bytes)
    (shares : List Share) (got : Received) : Prop where
  length : (bytesOf converter index shares).length = got.samples * host
  buffer : got.buffers[index]? =
    some (bytesOf converter index shares ++ buffer.drop (got.samples * host))

variable {index wire host : Nat} {c : Channel} {buffer : Bytes}

theorem Hands.fills (h : s.Hands wanted got n metadata filled) (hfull : s.Full)
    (hc : s.channels[index]? = some c) (hreads : c.converter.Reads wire host)
    (hgot : Filled host index c.converter buffer shares got) (m : Metadata) :
    Filled host index c.converter buffer (shares ++ [⟨s.held, n⟩])
      { samples := got.samples + n, metadata := m, buffers := filled } := by
  obtain ⟨p, hp⟩ := Option.isSome_iff_exists.mp (hfull c (List.mem_of_getElem? hc))
  have hrun : bytesOf c.converter index [⟨s.held, n⟩] = c.converter.run p.payload p.cursor n := by
    simp [bytesOf, hfull.getElem?_held hc, hp]
  refine ⟨?_, ?_⟩
  · rw [bytesOf_append, List.length_append, hgot.length, hrun, hreads.length_run, Nat.add_mul]
  · rw [bytesOf_append, hrun]
    exact convert_channel h.converted hc hp hreads hgot.buffer hgot.length

theorem Course.fills (h : Course r₀ buffers wanted onePacket es shares r got)
    (hsettled : r₀.Settled) (hlength : buffers.length = r₀.channels.length)
    (hc : r₀.channels[index]? = some c) (hreads : c.converter.Reads wire host)
    (hbuffer : buffers[index]? = some buffer) :
    Filled host index c.converter buffer shares got := by
  induction h with
  | start => exact ⟨by simp [bytesOf], by simpa [bytesOf] using hbuffer⟩
  | next h hgathers hhands _ _ _ _ ih =>
    have hhistory := (h.progress hsettled hlength).history.trans hgathers.history
    obtain ⟨c', hc', hsame⟩ := hhistory.exists_channel hc
    rw [← hsame] at hreads ih ⊢
    exact hhands.fills (hgathers.full rfl) hc' hreads ih _

/-- A call returns the samples of its shares. -/
theorem Called.delivered (h : Called r call es shares met r') (hsettled : r.Settled)
    (hc : r.channels[index]? = some c) (hreads : c.converter.Reads wire host) :
    call.delivered index host = bytesOf c.converter index shares := by
  cases h with
  | told _ hgot => simp [Call.delivered, hgot, bytesOf]
  | @took _ _ shares shares' _ _ _ got _ hlength hcourse hends =>
    obtain ⟨hlt, -⟩ := List.getElem?_eq_some_iff.mp hc
    have hbuffer := List.getElem?_eq_getElem (hlength ▸ hlt)
    have hfilled := hcourse.fills hsettled hlength hc hreads hbuffer
    have hall : Filled host index c.converter call.buffers[index] (shares ++ shares') call.got := by
      have hanswered := hends.answered
      generalize call.got = answer at hanswered ⊢
      cases hanswered with
      | same =>
        rw [List.append_nil]
        exact hfilled
      | told =>
        rw [List.append_nil]
        exact ⟨hfilled.length, hfilled.buffer⟩
      | handed hgathers hhands =>
        have hhistory := (hcourse.progress hsettled hlength).history.trans hgathers.history
        obtain ⟨c', hc', hsame⟩ := hhistory.exists_channel hc
        rw [← hsame] at hreads hfilled ⊢
        exact hhands.fills (hgathers.full rfl) hc' hreads hfilled _
    rw [Call.delivered, hall.buffer, Option.getD_some, List.take_left' hall.length]

end

end SampleStream.Receiver
