import Mathlib.Data.List.Basic
import SampleStream.Proofs.Receive.Ledger
import SampleStream.Proofs.Sample.Decode

/-!
# What a call does

A call is a loop of rounds, and each round gets packets together and hands out
samples of them. `Progress` is what holds between the start of a call and any of
its rounds: the samples in the buffers are those that the ledgers say were handed
out since, decoded, and what lies behind them is as it was. Every way out of a
round keeps it (`round_progress`), so it holds of the answer (`recv_progress`).
-/

namespace SampleStream.Receive

/-- The host bytes of samples, each given by the payload and the index in it. -/
def decoded (converter : Sample.Converter) (out : List (Bytes × Nat)) : Bytes :=
  out.flatMap fun s => converter.sampleAt s.1 s.2

theorem decoded_append (converter : Sample.Converter) (out out' : List (Bytes × Nat)) :
    decoded converter (out ++ out') = decoded converter out ++ decoded converter out' :=
  List.flatMap_append

theorem decoded_run (converter : Sample.Converter) (payload : Bytes) (start count : Nat) :
    decoded converter ((List.range count).map fun k => (payload, start + k)) =
      converter.run payload start count := by
  rw [decoded, List.flatMap_map, Sample.Converter.run]

theorem length_decoded {converter : Sample.Converter} {wire host : Nat}
    (h : converter.Reads wire host) (out : List (Bytes × Nat)) :
    (decoded converter out).length = out.length * host :=
  length_flatMap_of_const fun _ _ => h.length_sampleAt ..

end SampleStream.Receive

namespace SampleStream.Receiver
open Receive

/-! ## Handing out -/

/-- What handing out `n` samples takes: all channels have them, and they can be
converted. -/
structure Hands (r : Receiver) (wanted : Nat) (got : Received) (n : Nat) (metadata : Metadata)
    (buffers : List Bytes) : Prop where
  count : ∃ remaining, (r.held.map HeldPacket.remaining).min? = some remaining ∧
    n = min remaining (wanted - got.samples)
  together : ¬ (0 < got.samples ∧ r.held.any HeldPacket.outOfSequence = true)
  described : r.describeFirst got = some metadata
  converted : r.convert got.buffers got.samples n = some buffers

theorem Hands.count_le {r : Receiver} {wanted : Nat} {got : Received} {n : Nat}
    {metadata : Metadata} {buffers : List Bytes} (h : r.Hands wanted got n metadata buffers) :
    ∀ p ∈ r.held, n ≤ p.remaining := by
  intro p hp
  obtain ⟨remaining, hleast, hn⟩ := h.count
  have hle := (List.min?_eq_some_iff.mp hleast).2 p.remaining (List.mem_map_of_mem hp)
  omega

/-- The metadata once samples are handed out, by whether that used packets up. -/
def handedMetadata (used : Option Bool) (metadata : Metadata) : Metadata :=
  if used.isSome then metadata else { metadata with moreFragments := true }

section
variable (used : Option Bool) (m : Metadata)

@[simp] theorem outOfSequence_handedMetadata :
    (handedMetadata used m).outOfSequence = m.outOfSequence := by
  unfold handedMetadata
  split <;> rfl

@[simp] theorem code_handedMetadata : (handedMetadata used m).code = m.code := by
  unfold handedMetadata
  split <;> rfl

@[simp] theorem endOfBurst_handedMetadata :
    (handedMetadata used m).endOfBurst = m.endOfBurst := by
  unfold handedMetadata
  split <;> rfl

end

/-- The ways that handing out goes. -/
inductive HandsOut (r : Receiver) (wanted : Nat) (onePacket : Bool) (got : Received) :
    Round → Prop where
  /-- There is nothing to hand out. -/
  | nothing (hnone : (r.held.map HeldPacket.remaining).min? = none) :
    HandsOut r wanted onePacket got (.done (r, .ok got))
  /-- A gap has to wait for the next call. -/
  | gap (hsome : 0 < got.samples) (hgap : r.held.any HeldPacket.outOfSequence = true) :
    HandsOut r wanted onePacket got (.done (r, .ok got))
  /-- The samples are the last of a burst. -/
  | burst {n : Nat} {metadata : Metadata} {buffers : List Bytes}
    (h : r.Hands wanted got n metadata buffers) (hused : (r.advance n).2 = some true) :
    HandsOut r wanted onePacket got (.done ((r.advance n).1.endBurst, .ok {
      samples := got.samples + n, metadata := { metadata with endOfBurst := true }, buffers }))
  /-- No more samples are wanted. -/
  | enough {n : Nat} {metadata : Metadata} {buffers : List Bytes}
    (h : r.Hands wanted got n metadata buffers) (hused : (r.advance n).2 ≠ some true)
    (hover : onePacket = true ∨ r.held.any HeldPacket.outOfSequence = true ∨
      got.samples + n = wanted) :
    HandsOut r wanted onePacket got (.done ((r.advance n).1,
      .ok { samples := got.samples + n
            metadata := handedMetadata (r.advance n).2 metadata, buffers }))
  /-- Another round comes. -/
  | more {n : Nat} {metadata : Metadata} {buffers : List Bytes}
    (h : r.Hands wanted got n metadata buffers) (hused : (r.advance n).2 ≠ some true)
    (hone : onePacket = false) (hnogap : r.held.any HeldPacket.outOfSequence = false)
    (hwanted : got.samples + n ≠ wanted) :
    HandsOut r wanted onePacket got (.more (r.advance n).1
      { samples := got.samples + n, metadata := handedMetadata (r.advance n).2 metadata, buffers })

theorem handOut_cases {r : Receiver} {wanted : Nat} {onePacket : Bool} {got : Received}
    {result : Round} (h : r.handOut wanted onePacket got = some result) :
    r.HandsOut wanted onePacket got result := by
  unfold handOut at h
  cases hleast : (r.held.map HeldPacket.remaining).min? with
  | none =>
    rw [hleast] at h
    cases h
    exact .nothing hleast
  | some remaining =>
    rw [hleast] at h
    dsimp only at h
    by_cases hgap : 0 < got.samples ∧ r.held.any HeldPacket.outOfSequence = true
    · rw [if_pos hgap] at h
      cases h
      exact .gap hgap.1 hgap.2
    · simp only [if_neg hgap, bind, Option.bind_eq_some_iff] at h
      obtain ⟨metadata, hmetadata, buffers, hbuffers, h⟩ := h
      have hhands : r.Hands wanted got (min remaining (wanted - got.samples)) metadata buffers :=
        ⟨⟨remaining, hleast, rfl⟩, hgap, hmetadata, hbuffers⟩
      split at h
      · rename_i hused
        cases h
        exact .burst hhands hused
      · rename_i hused
        split at h
        · rename_i hover
          cases h
          exact .enough hhands hused hover
        · rename_i hover
          cases h
          simp only [not_or, Bool.not_eq_true] at hover
          exact .more hhands hused hover.1 hover.2.1 hover.2.2

/-! ## Converting -/

/-- A computation on every element that succeeds does so element by element. -/
theorem getElem?_of_mapM {α β : Type} {f : α → Checked β} {l : List α} {out : List β}
    (h : l.mapM f = some out) :
    out.length = l.length ∧
      ∀ (i : Nat) (a : α), l[i]? = some a → ∃ b, out[i]? = some b ∧ f a = some b := by
  induction l generalizing out with
  | nil =>
    cases h
    simp
  | cons a l ih =>
    simp only [List.mapM_cons, bind, Option.bind_eq_some_iff, pure, Option.some.injEq] at h
    obtain ⟨b, hb, bs, hbs, rfl⟩ := h
    obtain ⟨hlength, hall⟩ := ih hbs
    refine ⟨by simp [hlength], fun i x hx => ?_⟩
    cases i with
    | zero =>
      cases hx
      exact ⟨b, rfl, hb⟩
    | succ i => exact hall i x hx

theorem length_convert {r : Receiver} {buffers out : List Bytes} {filled count : Nat}
    (h : r.convert buffers filled count = some out) (hlength : buffers.length = r.channels.length) :
    out.length = buffers.length := by
  rw [(getElem?_of_mapM h).1, List.length_zip, ← hlength, Nat.min_self]

/-- The buffer of a channel after samples of its packet are converted into it,
when those before them are in place. -/
theorem convert_channel {r : Receiver} {buffers out : List Bytes} {filled count : Nat}
    (h : r.convert buffers filled count = some out) {index : Nat} {c : Channel} {p : HeldPacket}
    (hc : r.channels[index]? = some c) (hp : c.held = some p) {wire host : Nat}
    (hreads : c.converter.Reads wire host) {before behind : Bytes}
    (hbuffer : buffers[index]? = some (before ++ behind.drop (filled * host)))
    (hbefore : before.length = filled * host) :
    out[index]? = some (before ++ c.converter.run p.payload p.cursor count ++
      behind.drop ((filled + count) * host)) := by
  have hpair : (r.channels.zip buffers)[index]? =
      some (c, before ++ behind.drop (filled * host)) := by
    rw [List.getElem?_zip_eq_some]
    exact ⟨hc, hbuffer⟩
  obtain ⟨b, hb, hconvert⟩ := (getElem?_of_mapM h).2 index _ hpair
  simp only [Channel.convert, hp] at hconvert
  have hsplice := Sample.Converter.convert_eq_splice hreads hconvert
  have hlength := hreads.length_run p.payload p.cursor count
  rw [hb, hsplice, splice, ← hbefore]
  simp only [List.take_left, hlength, List.append_assoc, List.drop_append, List.drop_drop]
  rw [List.drop_eq_nil_of_le (Nat.le_add_right _ _), hbefore, Nat.add_mul]
  simp

/-! ## Packets of one time -/

theorem held_advance {r : Receiver} {count : Nat} (h : (r.advance count).1.Full) :
    (r.advance count).1.held = r.held.map (·.advance count) := by
  have hchannel (c : Channel) (hc : c ∈ r.channels) :
      (c.advance count).1.held = c.held.map (·.advance count) := by
    have hsome : (c.advance count).1.held.isSome :=
      h _ (by
        rw [advance, List.map_map]
        exact List.mem_map_of_mem hc)
    cases hheld : c.held with
    | none => simp [Channel.advance, hheld] at hsome
    | some p =>
      simp only [Channel.advance, hheld] at hsome ⊢
      split at hsome
      · cases hsome
      · rename_i hrest
        rw [if_neg hrest]
        rfl
  rw [held, held, advance, List.map_map, List.filterMap_map, List.map_filterMap]
  exact List.filterMap_congr hchannel

theorem settled_advance {r : Receiver} (h : r.Aligned) (count : Nat) :
    (r.advance count).1.Settled := by
  intro hfull
  have hheld := held_advance hfull
  have hnewest : (r.advance count).1.newest = r.newest := by
    rw [newest, hheld, List.filterMap_map, newest]
    rfl
  intro time htime
  rw [hheld, List.any_map]
  exact h time (hnewest ▸ htime)

theorem ready_history {r r' : Receiver} {found : Option Condition} (hsettled : r.Settled)
    (h : r.ready = some (r', .ok found)) :
    ∃ es, History r es r' ∧ (∀ e ∈ es, e.gathers = true) ∧ r'.Settled ∧
      EndsIn r.order r.tickRate es found ∧ (found = none → r'.Full ∧ r'.Aligned) := by
  unfold ready at h
  split at h
  · obtain ⟨es, hhistory, hgathers, hends, haligned, hfull⟩ := align_history h
    refine ⟨es, hhistory, hgathers, ?_, hends, fun hnone => ⟨hfull.mp hnone, haligned hnone⟩⟩
    intro hfull'
    exact haligned (hfull.mpr hfull')
  · rename_i hall
    cases h
    have hfull : r.Full := by
      intro c hc
      rw [Bool.not_eq_true, List.any_eq_false] at hall
      simpa [Option.isSome_iff_ne_none] using hall c hc
    exact ⟨[], .refl _, by simp, hsettled, .nothing (by simp), fun _ => ⟨hfull, hsettled hfull⟩⟩

/-! ## Rounds -/

/-- What holds from the start of a call that wants `wanted` samples, at the stream
`r₀`, to any of its rounds, at the stream `r`, which the events `es` led to. -/
structure Progress (r₀ : Receiver) (buffers : List Bytes) (wanted : Nat) (es : List Event)
    (r : Receiver) (got : Received) : Prop where
  history : History r₀ es r
  quiet : ∀ index, es.filterMap (Event.arrival index) = []
  settled : r.Settled
  counts : (es.map Event.count).sum = got.samples
  bound : got.samples ≤ wanted
  length : got.buffers.length = buffers.length
  written : ∀ {index : Nat} {c : Channel} {buffer : Bytes} {l : Ledger} {wire : Nat},
    r₀.channels[index]? = some c → buffers[index]? = some buffer →
    l.Tracks r₀.order r₀.wireItem c → c.converter.Reads wire r₀.hostItem →
    ∃ out, (l.recordAll r₀.order r₀.wireItem index es).out = l.out ++ out ∧
      got.buffers[index]? =
        some (decoded c.converter out ++ buffer.drop (got.samples * r₀.hostItem))

namespace Progress

variable {r₀ r r' : Receiver} {buffers buffers' : List Bytes} {wanted : Nat} {es es' : List Event}
  {got got' : Received}

theorem start (hsettled : r.Settled) (buffers : List Bytes) (wanted : Nat) :
    Progress r buffers wanted [] r { buffers } where
  history := .refl r
  quiet _ := rfl
  settled := hsettled
  counts := rfl
  bound := Nat.zero_le _
  length := rfl
  written _ hbuffer _ _ := ⟨[], by simp, by simp [hbuffer, decoded]⟩

/-- What is still to be reported and the mode of the device are of no account. -/
theorem aside (hp : Progress r₀ buffers wanted es r got) (pending : Option Metadata) (mode : Mode)
    (metadata : Metadata) :
    Progress r₀ buffers wanted es { r with pending, mode } { got with metadata } where
  history := hp.history.aside pending mode r.issued
  quiet := hp.quiet
  settled := hp.settled
  counts := hp.counts
  bound := hp.bound
  length := hp.length
  written := hp.written

theorem gather (hp : Progress r₀ buffers wanted es r got) (hhistory : History r es' r')
    (hgathers : ∀ e ∈ es', e.gathers = true) (hsettled : r'.Settled) :
    Progress r₀ buffers wanted (es ++ es') r' got := by
  have hcounts : (es'.map Event.count).sum = 0 := by
    rw [List.sum_eq_zero_iff_forall_eq_nat]
    intro n hn
    obtain ⟨e, he, rfl⟩ := List.mem_map.mp hn
    have hgather := hgathers e he
    cases e <;> first | rfl | cases hgather
  refine ⟨hp.history.trans hhistory, fun index => ?_, hsettled, by simp [hcounts, hp.counts],
    hp.bound, hp.length, fun hc hbuffer ht hreads => ?_⟩
  · rw [List.filterMap_append, hp.quiet, List.nil_append, List.filterMap_eq_nil_iff]
    intro e he
    have hgather := hgathers e he
    cases e <;> first | rfl | cases hgather
  · obtain ⟨out, hout, hgot⟩ := hp.written hc hbuffer ht hreads
    obtain ⟨c₁, hc₁, ht₁, -⟩ := hp.history.tracks hc ht
    rw [← order_of_setup hp.history.setup, ← wireItem_of_setup hp.history.setup] at ht₁ hout ⊢
    obtain ⟨more, hmore, hlength⟩ := hhistory.out hc₁ ht₁
    rw [hcounts, List.length_eq_zero_iff] at hlength
    refine ⟨out, ?_, hgot⟩
    rw [Ledger.recordAll_append, hmore, hout, hlength, List.append_nil]

theorem hand (hp : Progress r₀ buffers wanted es r got)
    (hlength : buffers.length = r₀.channels.length) (hfull : r.Full) (haligned : r.Aligned)
    {n : Nat} {metadata : Metadata} (h : r.Hands wanted got n metadata buffers')
    (metadata' : Metadata) :
    Progress r₀ buffers wanted (es ++ [.handed n]) (r.advance n).1
      { samples := got.samples + n, metadata := metadata', buffers := buffers' } := by
  have hchannels : got.buffers.length = r.channels.length := by
    rw [hp.length, hlength, hp.history.length_channels]
  have hbound : got.samples + n ≤ wanted := by
    obtain ⟨remaining, -, hn⟩ := h.count
    have := hp.bound
    omega
  refine ⟨hp.history.step (.handed hfull haligned h.count_le), fun index => ?_,
    settled_advance haligned n, by simp [hp.counts, Event.count], hbound,
    (length_convert h.converted hchannels).trans hp.length, fun {index c buffer l wire} hc hbuffer
    ht hreads => ?_⟩
  · rw [List.filterMap_append, hp.quiet]
    rfl
  · obtain ⟨out, hout, hgot⟩ := hp.written hc hbuffer ht hreads
    obtain ⟨c₁, hc₁, ht₁, -⟩ := hp.history.tracks hc ht
    obtain ⟨p, hheld⟩ := Option.isSome_iff_exists.mp (hfull c₁ (List.mem_of_getElem? hc₁))
    have hcurrent : (l.recordAll r₀.order r₀.wireItem index es).current = some p.part := by
      rw [← ht₁.held, hheld]
      rfl
    have hconverter : c₁.converter = c.converter := hp.history.converter hc hc₁
    -- as many samples are in place as were handed out
    have hout_length : out.length = got.samples := by
      obtain ⟨out', hout', hcount⟩ := hp.history.out hc ht
      rw [hout', List.append_cancel_left_eq] at hout
      rw [← hout, hcount, hp.counts]
    have hplace : (decoded c.converter out).length = got.samples * r₀.hostItem := by
      rw [length_decoded hreads, hout_length]
    have hchannel := convert_channel h.converted hc₁ hheld (hconverter ▸ hreads) hgot hplace
    refine ⟨out ++ (List.range n).map fun k => (p.payload, p.cursor + k), ?_, ?_⟩
    · rw [Ledger.recordAll_snoc, Ledger.record, Ledger.out_hand hcurrent, hout, List.append_assoc]
      rfl
    · rw [hchannel, hconverter, decoded_append, decoded_run]

end Progress

/-- Where the call stands after a round, if nothing went wrong. -/
def Round.reached : Round → Option (Receiver × Received)
  | .done (r, .ok got) => some (r, got)
  | .done (_, .error _) => none
  | .more r got => some (r, got)

theorem report_eq (r : Receiver) (found : Condition) (got : Received) :
    ∃ pending metadata,
      r.report found got = ({ r with pending }, .ok { got with metadata }) := by
  unfold report
  split
  · exact ⟨r.pending, _, rfl⟩
  · split
    · exact ⟨r.pending, got.metadata, rfl⟩
    · exact ⟨_, got.metadata, rfl⟩

theorem endBurst_eq (r : Receiver) : ∃ mode, r.endBurst = { r with mode } := by
  unfold endBurst
  split
  · exact ⟨_, rfl⟩
  · exact ⟨r.mode, rfl⟩

theorem round_progress {r₀ r r' : Receiver} {buffers : List Bytes} {wanted : Nat}
    {onePacket : Bool} {es : List Event} {got got' : Received} {result : Round}
    (hp : Progress r₀ buffers wanted es r got) (hlength : buffers.length = r₀.channels.length)
    (h : r.round wanted onePacket got = some result) (hreached : result.reached = some (r', got')) :
    ∃ es', Progress r₀ buffers wanted (es ++ es') r' got' := by
  simp only [round, bind, Option.bind_eq_some_iff] at h
  obtain ⟨⟨r₁, outcome⟩, hready, h⟩ := h
  cases outcome with
  | error e =>
    cases h
    cases hreached
  | ok found =>
    cases found with
    | some found =>
      obtain ⟨es₁, hhistory, hgathers, hsettled, -⟩ := ready_history hp.settled hready
      cases h
      obtain ⟨pending, metadata, hreport⟩ := report_eq r₁ found got
      rw [hreport] at hreached
      cases hreached
      exact ⟨es₁, (hp.gather hhistory hgathers hsettled).aside pending r₁.mode metadata⟩
    | none =>
      obtain ⟨es₁, hhistory, hgathers, hsettled, -, hnone⟩ := ready_history hp.settled hready
      obtain ⟨hfull, haligned⟩ := hnone rfl
      have hp₁ := hp.gather hhistory hgathers hsettled
      cases handOut_cases h with
      | nothing =>
        cases hreached
        exact ⟨es₁, hp₁⟩
      | gap =>
        cases hreached
        exact ⟨es₁, hp₁⟩
      | @burst n metadata _ hhands =>
        obtain ⟨mode, hmode⟩ := endBurst_eq (r₁.advance n).1
        rw [hmode] at hreached
        cases hreached
        refine ⟨es₁ ++ [.handed n], ?_⟩
        rw [← List.append_assoc]
        exact (hp₁.hand hlength hfull haligned hhands metadata).aside _ mode _
      | @enough n metadata _ hhands =>
        cases hreached
        refine ⟨es₁ ++ [.handed n], ?_⟩
        rw [← List.append_assoc]
        exact hp₁.hand hlength hfull haligned hhands _
      | @more n metadata _ hhands =>
        cases hreached
        refine ⟨es₁ ++ [.handed n], ?_⟩
        rw [← List.append_assoc]
        exact hp₁.hand hlength hfull haligned hhands _

theorem collect_progress {r₀ r r' : Receiver} {buffers : List Bytes} {wanted rounds : Nat}
    {onePacket : Bool} {es : List Event} {got got' : Received}
    (hp : Progress r₀ buffers wanted es r got) (hlength : buffers.length = r₀.channels.length)
    (h : collect wanted onePacket rounds r got = some (r', .ok got')) :
    ∃ es', Progress r₀ buffers wanted (es ++ es') r' got' := by
  induction rounds generalizing r got es with
  | zero =>
    cases h
    exact ⟨[], by simpa using hp⟩
  | succ rounds ih =>
    simp only [collect, bind, Option.bind_eq_some_iff] at h
    obtain ⟨result, hround, h⟩ := h
    cases result with
    | done answer =>
      cases h
      exact round_progress hp hlength hround rfl
    | more r₁ got₁ =>
      obtain ⟨es₁, hp₁⟩ := round_progress hp hlength hround rfl
      obtain ⟨es₂, hp₂⟩ := ih hp₁ h
      exact ⟨es₁ ++ es₂, by rw [← List.append_assoc]; exact hp₂⟩

/-! ## Calls -/

/-- A call that returns is a history of its own, in which no frame comes in, and
what it wrote are the samples handed out in it. -/
theorem recv_progress {r r' : Receiver} {buffers : List Bytes} {wanted : Nat} {onePacket : Bool}
    {got : Received} (hsettled : r.Settled)
    (h : r.recv buffers wanted onePacket = some (r', .ok got)) :
    ∃ es, Progress r buffers wanted es r' got := by
  unfold recv at h
  split at h
  · cases h
    exact ⟨[], (Progress.start hsettled buffers wanted).aside none r.mode _⟩
  · split at h
    · cases h
    · rename_i hlength
      simp only [bind, Option.bind_eq_some_iff] at h
      obtain ⟨need, -, h⟩ := h
      split at h
      · cases h
      · exact collect_progress (.start hsettled buffers wanted) (by simpa using hlength) h

end SampleStream.Receiver
